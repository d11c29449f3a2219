import GrinDotnet.Core.BlockWire

/-!
# The order of construction

Transactions and blocks leave with their parts in the order of their hashes. When the hashes are
distinct, nothing that leaves depends on the order in which the parts were put together, and so not on
which output was added last.

Results:
1. `orderByHash_eq_of_perm`: sorting by distinct hashes forgets the order of a list.
2. `construction_order_hidden`: what is serialized or hashed of transactions and blocks.
-/

namespace GrinDotnet

open BigEndian

variable {env : Env}

/-- The runtime's string comparison is a total order on hex strings. A culture may take other strings for
equal. -/
structure Env.TotallyOrdered (env : Env) : Prop extends env.Ordered where
  antisymm : ∀ a b : Bytes, env.stringLe (toHex a) (toHex b) = true →
    env.stringLe (toHex b) (toHex a) = true → toHex a = toHex b

/-- No two parts have the same hash. -/
def DistinctHashes {α : Type} (env : Env) (write : α → Bytes) (items : List α) : Prop :=
  (items.map fun item => hashOf env (write item)).Nodup

/-- Sorting by distinct hashes forgets the order of a list. -/
theorem orderByHash_eq_of_perm {α : Type} (henv : env.TotallyOrdered) (write : α → Bytes)
    {items items' : List α} (h : items.Perm items') (hdistinct : DistinctHashes env write items) :
    orderByHash env write items = orderByHash env write items' := by
  have htotal : Std.Total fun a b => env.stringLe a b = true := ⟨henv.total⟩
  have htrans : IsTrans String fun a b => env.stringLe a b = true := ⟨henv.trans⟩
  have hkeys : (items.map (hashKey env write)).Nodup := by
    have hmap : items.map (hashKey env write)
        = (items.map fun item => hashOf env (write item)).map toHex := by
      rw [List.map_map]
      rfl
    rw [hmap]
    exact List.Nodup.map (fun _ _ => toHex_injective) hdistinct
  exact StableSort.insertionSort_eq_of_perm (fun a b => env.stringLe a b = true) (hashKey env write)
    (fun _ _ => henv.antisymm _ _) h hkeys

/-! ## Transactions -/

namespace Transaction

/-- Two transactions of the same parts with distinct hashes, put together in any order. -/
structure SameParts (env : Env) (tx tx' : Transaction) : Prop where
  fee : tx.fee = tx'.fee
  lockHeight : tx.lockHeight = tx'.lockHeight
  excessSig : tx.excessSig = tx'.excessSig
  inputs : tx.inputs.Perm tx'.inputs
  outputs : tx.outputs.Perm tx'.outputs
  distinctInputs : DistinctHashes env Input.write tx.inputs
  distinctOutputs : DistinctHashes env (Output.write .hash) tx.outputs

/-- In every mode the same parts are written in the same way. -/
theorem write_eq_of_sameParts (henv : env.TotallyOrdered) {tx tx' : Transaction}
    (h : SameParts env tx tx') (mode : SerializationMode) : tx.write env mode = tx'.write env mode := by
  unfold write
  rw [h.fee, h.lockHeight, h.excessSig, h.inputs.length_eq, h.outputs.length_eq,
    orderByHash_eq_of_perm henv Input.write h.inputs h.distinctInputs,
    orderByHash_eq_of_perm henv (Output.write .hash) h.outputs h.distinctOutputs]

end Transaction

/-! ## Blocks -/

namespace Block

/-- `Block.Hash`, computed of the header. -/
def hash (env : Env) (self : Block) : Bytes := self.header.hash env

/-- Two blocks of the same parts with distinct hashes, put together in any order. -/
structure SameParts (env : Env) (b b' : Block) : Prop where
  header : b.header = b'.header
  inputs : b.inputs.Perm b'.inputs
  outputs : b.outputs.Perm b'.outputs
  kernels : b.kernels.Perm b'.kernels
  distinctInputs : DistinctHashes env Input.write b.inputs
  distinctOutputs : DistinctHashes env (Output.write .hash) b.outputs
  distinctKernels : DistinctHashes env TxKernel.write b.kernels

/-- In every mode the same parts are written in the same way. -/
theorem write_eq_of_sameParts (henv : env.TotallyOrdered) {b b' : Block} (h : SameParts env b b')
    (mode : SerializationMode) : b.write env mode = b'.write env mode := by
  unfold write
  rw [h.header]
  cases mode with
  | hash => rfl
  | full =>
    simp only [h.inputs.length_eq, h.outputs.length_eq, h.kernels.length_eq,
      orderByHash_eq_of_perm henv Input.write h.inputs h.distinctInputs,
      orderByHash_eq_of_perm henv (Output.write .hash) h.outputs h.distinctOutputs,
      orderByHash_eq_of_perm henv TxKernel.write h.kernels h.distinctKernels]

end Block

/-- What is serialized and hashed of a transaction or a block does not show the order in which its
parts were put together. -/
theorem construction_order_hidden (henv : env.TotallyOrdered) :
    (∀ tx tx' : Transaction, tx.SameParts env tx' →
      tx.serVec env = tx'.serVec env ∧ tx.hash env = tx'.hash env) ∧
    (∀ b b' : Block, b.SameParts env b' →
      b.serVec env = b'.serVec env ∧ b.hash env = b'.hash env) := by
  constructor
  · intro tx tx' h
    unfold Transaction.serVec Transaction.hash
    rw [Transaction.write_eq_of_sameParts henv h, Transaction.write_eq_of_sameParts henv h]
    exact ⟨rfl, rfl⟩
  · intro b b' h
    unfold Block.serVec Block.hash
    rw [Block.write_eq_of_sameParts henv h, h.header]
    exact ⟨rfl, rfl⟩

theorem Pairs.env_totallyOrdered : Pairs.env.TotallyOrdered where
  toOrdered := Pairs.env_ordered
  antisymm _ _ hab hba := String.le_antisymm (of_decide_eq_true hab) (of_decide_eq_true hba)

/-- The transaction of `pairWire` with its inputs swapped. -/
def pairSwapped : Transaction :=
  { Transaction.pairWire with inputs := Transaction.pairWire.inputs.reverse }

theorem pairSwapped_sameParts : Transaction.pairWire.SameParts Pairs.env pairSwapped where
  fee := rfl
  lockHeight := rfl
  excessSig := rfl
  inputs := (List.reverse_perm _).symm
  outputs := .refl _
  distinctInputs := by unfold DistinctHashes; decide +kernel
  distinctOutputs := by unfold DistinctHashes; decide +kernel

theorem construction_order_hidden_pairs :
    Transaction.pairWire.serVec Pairs.env = pairSwapped.serVec Pairs.env ∧
      Transaction.pairWire.hash Pairs.env = pairSwapped.hash Pairs.env :=
  (construction_order_hidden Pairs.env_totallyOrdered).1 _ _ pairSwapped_sameParts

end GrinDotnet
