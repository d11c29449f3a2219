import GrinDotnet.Wallet.Operations

/-!
# The indices of outputs

`Next_child` looks only at the records that are in the file, and a rollback deletes one. So an index
is given again after the record of its output was deleted, and not before.

Results:
1. `indices_ne`: two outputs have different indices as long as the record of the first one stays.
2. `index_reused`: after a rollback the next output has the same index.
-/

namespace GrinDotnet

open WorldLemmas WalletLemmas

variable {env : Env}

namespace Operation

/-- After a record was made, it is there. -/
theorem present_of_recording {kc : Keychain env} {file file' : WalletFile} {index : UInt32}
    {data data' : WalletData} {o : OutputData} {keyId : Identifier}
    (h : Recording kc file index file' data data' o keyId) : Present keyId.hexValue file' := by
  rw [Present, h.written, satisfies_stored]
  exact ⟨o, by rw [lookup_addOutput h.added, h.filed, if_pos rfl]⟩

/-- Before a record was made, there was none under its key id. -/
theorem not_present_of_recording {kc : Keychain env} {file file' : WalletFile} {index : UInt32}
    {data data' : WalletData} {o : OutputData} {keyId : Identifier}
    (h : Recording kc file index file' data data' o keyId) : ¬ Present keyId.hexValue file := by
  intro hpresent
  obtain ⟨r, hr⟩ := hpresent data h.read
  have hnew := (Dictionary.add_eq_some_iff.mp (addOutput_eq_ok_iff.mp h.added)).1
  rw [h.filed, hr] at hnew
  cases hnew

/-- An operation that takes an index makes a record, whether it completes or raises. -/
theorem recording_of_index {kc : Keychain env} {w w' : World} {event : Event} {index : UInt32}
    (h : Operation kc w event w') (hindex : event.index? = some index) :
    ∃ data data' o keyId, Recording kc w.file index w'.file data data' o keyId := by
  cases h with
  | completed h =>
    obtain ⟨data, data', o, keyId, hrecording, -⟩ := exists_recording h hindex
    exact ⟨data, data', o, keyId, hrecording⟩
  | recorded _ hrecording =>
    obtain rfl := Option.some.inj hindex
    exact ⟨_, _, _, _, hrecording⟩
  | raised | lockRaised | removeRaised | rollbackRaised | refreshRaised | talked => cases hindex

/-- In every run, from any wallet file, two outputs that are recorded have different indices, whether
their operations complete or raise, unless the record of the first one was deleted before the second
one was made. A rollback that raises counts as a deletion only if the record is gone. -/
theorem indices_ne {kc : Keychain env} {w w' : World} {before between after : List Event}
    {first second : Event} {i j : UInt32} (hi : first.index? = some i) (hj : second.index? = some j)
    (hrun : Run (Operation kc) w (before ++ first :: (between ++ second :: after)) w')
    (hkept : ∀ keyId, kc.deriveKeyId i = .ok keyId → .removed keyId ∉ between) : i ≠ j := by
  rintro rfl
  -- the run passes through the two creations
  obtain ⟨w₀, w₁, -, hfirst, hrest⟩ := hrun.exists_step
  obtain ⟨w₂, w₃, hbetween, hsecond, -⟩ := hrest.exists_step
  obtain ⟨data, data', o, keyId, hrecording⟩ := recording_of_index hfirst hi
  obtain ⟨data₂, data₂', o₂, keyId₂, hrecording₂⟩ := recording_of_index hsecond hj
  obtain rfl := Except.ok.inj (hrecording.derived.symm.trans hrecording₂.derived)
  -- the record of the first one is still there when the second one is created
  have hstays : Present keyId.hexValue w₂.file := by
    refine present_of_run hbetween (fun other hmem he => ?_) (present_of_recording hrecording)
    obtain rfl := Identifier.hexValue_injective he
    exact hkept _ hrecording.derived hmem
  exact not_present_of_recording hrecording₂ hstays

/-! ### Over pairs -/

/-- The pairs' first send. -/
theorem pairSend_first : PairSend pairWallet 1 9000000 1000000 3 := by decide +kernel

/-- A send, a rollback of it that does not get the lock, and a second send: the change of the first
one is still recorded, and the changes have the indices 3 and 4. -/
theorem indices_ne_pairs : ∃ w, Run (Operation pairSender) (pairStored pairWallet)
    [.created 3 (pairCommit 1000000 3), .other, .created 4 (pairCommit 2000000 4)] w ∧
    (3 : UInt32) ≠ 4 := by
  have hkept : ((pairChanged pairWallet 1000000).outputs.lookup (pairKeyId 3).hexValue).isSome := by
    decide +kernel
  obtain ⟨o, ho⟩ := Option.isSome_iff_exists.mp hkept
  have hsecond : PairSend (pairChanged pairWallet 1000000) 1 8000000 2000000 4 := by decide +kernel
  have hrun : Run (Operation pairSender) (pairStored pairWallet)
      ([] ++ .created 3 (pairCommit 1000000 3)
        :: ([.other] ++ .created 4 (pairCommit 2000000 4) :: []))
      (pairStored (pairChanged (pairChanged pairWallet 1000000) 2000000)) :=
    ((Run.single (Operation.completed (sent_pairs pairSend_first))).snoc
      (rollbackRaised_pairs ho)).snoc (Operation.completed (sent_pairs hsecond))
  exact ⟨_, hrun, indices_ne rfl rfl hrun fun _ _ => by simp⟩

/-- The delivery of a send fails and its change is deleted. The next send gives its own change the
same index: two outputs, one key. -/
theorem index_reused : ∃ w, Run (Operation pairSender) (pairStored pairWallet)
    [.created 3 (pairCommit 1000000 3), .removed (pairKeyId 3), .created 3 (pairCommit 2000000 3)] w ∧
    pairCommit 1000000 3 ≠ pairCommit 2000000 3 := by
  have hsecond : PairSend ((pairChanged pairWallet 1000000).deleteOutput (pairKeyId 3))
      1 8000000 2000000 3 := by decide +kernel
  have hrun := ((Run.single (Operation.completed (sent_pairs pairSend_first))).snoc
    (Operation.completed (removed_pairs _ 3))).snoc
    (Operation.completed (sent_pairs hsecond))
  exact ⟨_, hrun, by decide⟩

end Operation

end GrinDotnet
