import GrinDotnet.Core.Layout

/-!
# The order of items on the wire

What is read keeps the order of the stream, since `Read_and_verify_sorted` does not verify it: the
check is a comment and `verify_sort_order` is not implemented. So the lists of what is read are sorted
exactly when the stream has its items in that order.

Results:
1. `sortedByHash_iff`: a list is sorted when the bytes it was read from ascend.
2. `deserialize_sorted_iff`: the streams from which nothing unsorted is read.
-/

namespace GrinDotnet

open BigEndian Outcome ZeroFilled

/-- A list in non-decreasing order of the hashes of its items. -/
def SortedByHash {α : Type} (env : Env) (write : α → Bytes) (items : List α) : Prop :=
  items.Pairwise fun a b => env.stringLe (hashKey env write a) (hashKey env write b) = true

/-- Byte strings of which none has a smaller hash than the one before it. -/
def Ascending (env : Env) (n : ℕ) (hashed : ℕ → Bytes) : Prop :=
  ∀ k, k + 1 < n →
    env.stringLe (toHex (hashOf env (hashed k))) (toHex (hashOf env (hashed (k + 1)))) = true

/-- A list is sorted exactly when the bytes its items were read from ascend. -/
theorem sortedByHash_iff {α : Type} {env : Env} (h : env.Ordered) {write : α → Bytes} {items : List α}
    {n : ℕ} {hashed : ℕ → Bytes} (hmap : items.map write = (List.range n).map hashed) :
    SortedByHash env write items ↔ Ascending env n hashed := by
  let below (as bs : Bytes) : Prop :=
    env.stringLe (toHex (hashOf env as)) (toHex (hashOf env bs)) = true
  have htrans : Trans below below below := ⟨fun hab hbc => h.trans _ _ _ hab hbc⟩
  have hpair : SortedByHash env write items ↔ ((List.range n).map hashed).Pairwise below := by
    rw [← hmap, List.pairwise_map]
    rfl
  rw [hpair, ← List.isChain_iff_pairwise, List.isChain_iff_getElem]
  simp only [List.length_map, List.length_range, List.getElem_map, List.getElem_range]
  rfl

/-- The inputs and outputs of a transaction are in the order of their hashes. -/
def Transaction.Sorted (env : Env) (tx : Transaction) : Prop :=
  SortedByHash env Input.write tx.inputs ∧ SortedByHash env (Output.write .hash) tx.outputs

/-- The inputs, outputs and kernels of a block are in the order of their hashes. -/
def Block.Sorted (env : Env) (b : Block) : Prop :=
  SortedByHash env Input.write b.inputs ∧ SortedByHash env (Output.write .hash) b.outputs ∧
    SortedByHash env TxKernel.write b.kernels

/-- The stream has the inputs and the outputs of a transaction in the order of their hashes. -/
def Transaction.InOrder (env : Env) (s : Bytes) : Prop :=
  Ascending env (inputCount s) (fun k => bytesAt s (inputPlace s k) 33) ∧
    Ascending env (outputCount s) fun k => bytesAt s (outputPlace s k) 54

/-- The stream has the inputs, the outputs and the kernels of a block in the order of their hashes. -/
def Block.InOrder (env : Env) (s : Bytes) : Prop :=
  Ascending env (inputCount s) (fun k => bytesAt s (inputPlace s k) 33) ∧
    Ascending env (outputCount s) (fun k => bytesAt s (outputPlace s k) 54) ∧
    Ascending env (kernelCount s) fun k => kernelFormat.hashed s (kernelPlace s k)

theorem Transaction.deserialize_sorted_iff {env : Env} (h : env.Ordered) (s : Bytes) :
    (∀ tx, deserialize s = .ok tx → tx.Sorted env) ↔ (Readable s → InOrder env s) := by
  refine forall_ok_iff (fun hs => ?_) fun hs => ?_
  · obtain ⟨tx, rest, hread, hin, hout⟩ := read_of_readable hs
    refine ⟨tx, ?_, and_congr (sortedByHash_iff h hin) (sortedByHash_iff h hout)⟩
    rw [deserialize, hread, ok_bind]
    rfl
  · obtain ⟨e, he⟩ := read_of_not_readable hs
    refine ⟨e, ?_⟩
    rw [deserialize, he, error_bind]

theorem Block.deserialize_sorted_iff {env : Env} (h : env.Ordered) (s : Bytes) :
    (∀ b, deserialize s = .ok b → b.Sorted env) ↔ (Readable s → InOrder env s) := by
  refine forall_ok_iff (fun hs => ?_) fun hs => ?_
  · obtain ⟨b, rest, hread, hin, hout, hkern⟩ := read_of_readable hs
    refine ⟨b, ?_, and_congr (sortedByHash_iff h hin)
      (and_congr (sortedByHash_iff h hout) (sortedByHash_iff h hkern))⟩
    rw [deserialize, hread, ok_bind]
    rfl
  · obtain ⟨e, he⟩ := read_of_not_readable hs
    refine ⟨e, ?_⟩
    rw [deserialize, he, error_bind]

/-- Whatever is read from a stream is sorted exactly when the stream has its items in the order of
their hashes, for transactions and for blocks. -/
theorem wire_order_kept {env : Env} (h : env.Ordered) (s : Bytes) :
    ((∀ tx, Transaction.deserialize s = .ok tx → tx.Sorted env) ↔
      (Transaction.Readable s → Transaction.InOrder env s)) ∧
    ((∀ b, Block.deserialize s = .ok b → b.Sorted env) ↔
      (Block.Readable s → Block.InOrder env s)) :=
  ⟨Transaction.deserialize_sorted_iff h s, Block.deserialize_sorted_iff h s⟩

/-- A stream with two inputs, the one of the greater hash first. -/
def misorderedStream : Bytes :=
  writeU64 1 ++ writeU64 4 ++ writeBytes [48, 6] ++ writeU64 2 ++ writeU64 0 ++
    Input.write ⟨⟨Pairs.save 5 3⟩⟩ ++ Input.write ⟨⟨Pairs.save 2 9⟩⟩

theorem wire_order_kept_pairs :
    ((∀ tx, Transaction.deserialize misorderedStream = .ok tx → tx.Sorted Pairs.env) ↔
      (Transaction.Readable misorderedStream →
        Transaction.InOrder Pairs.env misorderedStream)) ∧
    ((∀ b, Block.deserialize misorderedStream = .ok b → b.Sorted Pairs.env) ↔
      (Block.Readable misorderedStream → Block.InOrder Pairs.env misorderedStream)) :=
  wire_order_kept Pairs.env_ordered misorderedStream

/-- An unsorted transaction is read without complaint. -/
theorem misordered_accepted :
    ∃ tx, Transaction.deserialize misorderedStream = .ok tx ∧ ¬ tx.Sorted Pairs.env := by
  refine ⟨⟨[⟨⟨Pairs.save 5 3⟩⟩, ⟨⟨Pairs.save 2 9⟩⟩], [], 1, 4, [48, 6]⟩, by decide +kernel, ?_⟩
  rintro ⟨hinputs, -⟩
  have hle := (List.pairwise_cons.mp hinputs).1 ⟨⟨Pairs.save 2 9⟩⟩ (by simp)
  exact absurd hle (by decide +kernel)

end GrinDotnet
