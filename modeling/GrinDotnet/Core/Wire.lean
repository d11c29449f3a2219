import GrinDotnet.Core.Transaction
import GrinDotnet.Keychain.PairKeychain
import GrinDotnet.Lib.StableSort

/-!
# The transaction on the wire

A transaction is written with its inputs and outputs in the order of their hashes. Reading does not
restore the order, so what comes back is the sorted transaction.

Results:
1. `orderByHash_sortedBy`: sorting is stable.
2. `deserialize_serVec`: what was written is read back, sorted.
3. `wire_round_trip`: nothing of a transaction is lost on the wire but the order of its parts.
-/

namespace GrinDotnet

open BigEndian Outcome SerLemmas StableSort

theorem orderByHash_perm {α : Type} (env : Env) (write : α → Bytes) (items : List α) :
    (orderByHash env write items).Perm items :=
  List.perm_insertionSort _ items

/-- The hash that orders the parts of transactions and blocks, in hex. -/
def hashKey {α : Type} (env : Env) (write : α → Bytes) (item : α) : String :=
  toHex (hashOf env (write item))

/-- Sorting by hash is stable. -/
theorem orderByHash_sortedBy {α : Type} {env : Env} (h : env.Ordered) (write : α → Bytes)
    (items : List α) :
    SortedBy (fun a b => env.stringLe a b = true) (hashKey env write) items
      (orderByHash env write items) := by
  have htotal : Std.Total fun a b => env.stringLe a b = true := ⟨h.total⟩
  have htrans : IsTrans String fun a b => env.stringLe a b = true := ⟨h.trans⟩
  exact sortedBy_insertionSort (fun a b => env.stringLe a b = true) (hashKey env write) items

/-- Sorting by hash once more changes nothing. -/
theorem orderByHash_orderByHash {α : Type} {env : Env} (h : env.Ordered) (write : α → Bytes)
    (items : List α) :
    orderByHash env write (orderByHash env write items) = orderByHash env write items :=
  (orderByHash_sortedBy h write items).insertionSort_eq

/-- The output's parts have the sizes the wire format gives them. -/
structure Output.WellSized (o : Output) : Prop where
  hash : o.switchCommitHash.hash.length = switchCommitHashSize
  proof : o.proof.proof.length ≤ maxProofSize
  plen : o.proof.plen = o.proof.proof.length

namespace Transaction

/-- The transaction with its inputs and outputs in the order of their hashes. -/
def sorted (env : Env) (tx : Transaction) : Transaction :=
  { tx with
    inputs := orderByHash env Input.write tx.inputs
    outputs := orderByHash env (Output.write .hash) tx.outputs }

/-- A transaction that fits into the runtime's arrays, with outputs of the sizes they are written
in. -/
structure Writable (tx : Transaction) : Prop where
  excessSig : tx.excessSig.length ≤ maxByteArrayLength
  inputs : tx.inputs.length ≤ maxArrayLength
  outputs : tx.outputs.length ≤ maxArrayLength
  wellSized : ∀ o ∈ tx.outputs, o.WellSized

end Transaction

theorem Input.read_write (i : Input) (rest : Bytes) :
    Input.read (i.write ++ rest) = .ok (i, rest) := by
  rw [Input.read, Input.write, run_bind_of_ok (readCommitment_write i.commitment rest), run_pure]

theorem Output.read_write {o : Output} (h : o.WellSized) (rest : Bytes) :
    Output.read (o.write .full ++ rest) = .ok (o, rest) := by
  have hhash : o.switchCommitHash.hash.length = (UInt32.ofNat switchCommitHashSize).toNat := by
    rw [h.hash]
    rfl
  have hmax : o.switchCommitHash.hash.length ≤ maxByteArrayLength := by
    rw [h.hash]
    decide
  have hwrite : o.write .full ++ rest = writeU8 o.features ++ (o.commit.value.1 ++
      (o.switchCommitHash.hash ++ (writeBytes o.proof.proof ++ rest))) := by
    simp [Output.write, List.append_assoc]
  rw [hwrite, Output.read, run_bind_of_ok (readU8_writeU8 _ _),
    run_bind_of_ok (readCommitment_write _ _),
    run_bind_of_ok (readFixedBytes_append _ hhash hmax),
    run_bind_of_ok (readRangeProof_write _ h.proof h.plen), run_pure]

namespace Transaction

/-- The whole stream is read, and what comes back is the sorted transaction. -/
theorem read_serVec (env : Env) {tx : Transaction} (h : tx.Writable) :
    read (tx.serVec env) = .ok (tx.sorted env, []) := by
  have hin : (orderByHash env Input.write tx.inputs).length = tx.inputs.length :=
    (orderByHash_perm env _ _).length_eq
  have hout : (orderByHash env (Output.write .hash) tx.outputs).length = tx.outputs.length :=
    (orderByHash_perm env _ _).length_eq
  have hwrite : tx.serVec env = writeU64 tx.fee ++ (writeU64 tx.lockHeight ++
      (writeBytes tx.excessSig ++ (writeU64 (UInt64.ofNat tx.inputs.length) ++
      (writeU64 (UInt64.ofNat tx.outputs.length) ++
      ((orderByHash env Input.write tx.inputs).flatMap Input.write ++
      ((orderByHash env (Output.write .hash) tx.outputs).flatMap (Output.write .full) ++ [])))))) := by
    simp [serVec, write, List.append_assoc]
  have hitems : ∀ o ∈ orderByHash env (Output.write .hash) tx.outputs, ∀ rest,
      Output.read (o.write .full ++ rest) = .ok (o, rest) := fun o ho =>
    Output.read_write (h.wellSized o ((orderByHash_perm env _ _).mem_iff.mp ho))
  rw [hwrite, read, run_bind_of_ok (readU64_writeU64 _ _), run_bind_of_ok (readU64_writeU64 _ _),
    run_bind_of_ok (readVec_writeBytes _ h.excessSig), run_bind_of_ok (readU64_writeU64 _ _),
    run_bind_of_ok (readU64_writeU64 _ _), ← hin,
    run_bind_of_ok (readAndVerifySorted_write (fun i _ => Input.read_write i) _
      (hin ▸ h.inputs)), ← hout,
    run_bind_of_ok (readAndVerifySorted_write hitems _ (hout ▸ h.outputs)), run_pure]
  rfl

/-- Deserializing a serialized transaction gives it back in sorted order. -/
theorem deserialize_serVec (env : Env) {tx : Transaction} (h : tx.Writable) :
    deserialize (tx.serVec env) = .ok (tx.sorted env) := by
  rw [deserialize, read_serVec env h]
  rfl

/-- The sorted transaction is written as the original is. -/
theorem write_sorted {env : Env} (h : env.Ordered) (mode : SerializationMode) (tx : Transaction) :
    (tx.sorted env).write env mode = tx.write env mode := by
  have hin : (orderByHash env Input.write tx.inputs).length = tx.inputs.length :=
    (orderByHash_perm env _ _).length_eq
  have hout : (orderByHash env (Output.write .hash) tx.outputs).length = tx.outputs.length :=
    (orderByHash_perm env _ _).length_eq
  simp only [write, sorted, orderByHash_orderByHash h, hin, hout]

/-- Nothing of a transaction is lost on the wire but the order of its parts, and the order it comes
back in is the one it is written in again. -/
theorem wire_round_trip {env : Env} (henv : env.Ordered) {tx : Transaction} (h : tx.Writable) :
    ∃ tx' : Transaction,
      read (tx.serVec env) = .ok (tx', []) ∧ deserialize (tx.serVec env) = .ok tx' ∧
      tx'.fee = tx.fee ∧ tx'.lockHeight = tx.lockHeight ∧ tx'.excessSig = tx.excessSig ∧
      SortedBy (fun a b => env.stringLe a b = true) (hashKey env Input.write) tx.inputs tx'.inputs ∧
      SortedBy (fun a b => env.stringLe a b = true) (hashKey env (Output.write .hash))
        tx.outputs tx'.outputs ∧
      tx'.hash env = tx.hash env ∧ tx'.serVec env = tx.serVec env := by
  refine ⟨tx.sorted env, read_serVec env h, deserialize_serVec env h, rfl, rfl, rfl, ?_, ?_, ?_, ?_⟩
  · exact orderByHash_sortedBy henv Input.write tx.inputs
  · exact orderByHash_sortedBy henv (Output.write .hash) tx.outputs
  · rw [hash, hash, write_sorted henv]
  · exact write_sorted henv .full tx

/-- A transaction of two inputs and one output over pairs. -/
def pairWire : Transaction where
  inputs := [⟨⟨Pairs.save 5 3⟩⟩, ⟨⟨Pairs.save 2 9⟩⟩]
  outputs := [⟨OutputFeatures.defaultOutput, ⟨Pairs.save 6 1⟩, ⟨List.replicate 20 7⟩, ⟨[1, 2, 3], 3⟩⟩]
  fee := 1
  lockHeight := 4
  excessSig := [48, 6]

theorem pairWire_writable : pairWire.Writable where
  excessSig := by decide
  inputs := by decide
  outputs := by decide
  wellSized o ho := by
    obtain rfl := List.mem_singleton.mp ho
    exact ⟨rfl, by decide, rfl⟩

theorem wire_round_trip_pairs :
    ∃ tx' : Transaction,
      read (pairWire.serVec Pairs.env) = .ok (tx', []) ∧
      deserialize (pairWire.serVec Pairs.env) = .ok tx' ∧
      tx'.fee = pairWire.fee ∧ tx'.lockHeight = pairWire.lockHeight ∧
      tx'.excessSig = pairWire.excessSig ∧
      SortedBy (fun a b => Pairs.env.stringLe a b = true) (hashKey Pairs.env Input.write)
        pairWire.inputs tx'.inputs ∧
      SortedBy (fun a b => Pairs.env.stringLe a b = true) (hashKey Pairs.env (Output.write .hash))
        pairWire.outputs tx'.outputs ∧
      tx'.hash Pairs.env = pairWire.hash Pairs.env ∧
      tx'.serVec Pairs.env = pairWire.serVec Pairs.env :=
  wire_round_trip Pairs.env_ordered pairWire_writable

end Transaction

end GrinDotnet
