import GrinDotnet.Keychain.PairKeychain
import GrinDotnet.Wallet.Operations

/-!
# Outputs that can be found

The wallet remembers of an output the index of its key and its value, and a refresh computes the
commitment from these. Three operations make records of outputs, each with the key it derived itself.
A send whose transaction cannot be built has made its record all the same.

Results:
1. `tracked_of_completed`: every operation keeps the records traceable.
2. `traceable_of_run`: so they are in every run from an empty wallet.
-/

namespace GrinDotnet

open BigEndian Outcome WorldLemmas WalletLemmas

variable {env : Env} {kc : Keychain env}

/-! ## Keychains -/

/-- Distinct indices have distinct key ids. -/
def Keychain.Distinct (kc : Keychain env) : Prop :=
  ∀ i j id, kc.deriveKeyId i = .ok id → kc.deriveKeyId j = .ok id → i = j

/-- No key of an index is overridden. -/
def Keychain.Plain (kc : Keychain env) : Prop :=
  ∀ i id, kc.deriveKeyId i = .ok id → kc.keyOverrides.lookup id.hexValue = none

theorem Keychain.plain_of_fromSeed {seed : Bytes} (h : Keychain.fromSeed env seed = .ok kc) :
    kc.Plain := by
  obtain ⟨extkey, -, h⟩ := bind_eq_ok.mp h
  cases h
  exact fun _ _ _ => rfl

/-- A commitment under a key id is the one that is computed from its index. -/
theorem commitWithKeyIndex_of_commit (hdistinct : kc.Distinct) (hplain : kc.Plain) {i : UInt32}
    {id : Identifier} (hid : kc.deriveKeyId i = .ok id) {value : UInt64} {commit : Commitment}
    (h : kc.commit value id = .ok commit) : kc.commitWithKeyIndex value i = .ok commit := by
  obtain ⟨key, hkey, hcommit⟩ := bind_eq_ok.mp h
  have hindex : kc.derivedKeyFromIndex i = .ok key :=
    Keychain.derivedKey_eq_fromIndex hid (hplain i id hid) (fun j hj => hdistinct j i id hj hid) hkey
  rw [Keychain.commitWithKeyIndex, hindex, ok_bind, hcommit]

/-! ## Records of outputs -/

/-- How many outputs were recorded. -/
def createdCount (history : List Event) : ℕ := history.countP fun event => event.index?.isSome

theorem createdCount_snoc_le (history : List Event) (event : Event) :
    createdCount history ≤ createdCount (history ++ [event]) := by
  rw [createdCount, createdCount, List.countP_append]
  omega

theorem createdCount_snoc (history : List Event) {event : Event} {index : UInt32}
    (h : event.index? = some index) : createdCount (history ++ [event]) = createdCount history + 1 := by
  simp [createdCount, List.countP_append, h]

/-- The record is that of the operation which last took its index. If a transaction or a coinbase was
built there, the commitment that a refresh computes for the record is that of the output in it. -/
def Found (kc : Keychain env) (history : List Event) (o : OutputData) : Prop :=
  ∃ before event after, history = before ++ event :: after ∧ event.index? = some o.nChild ∧
    (∀ later ∈ after, later.index? ≠ some o.nChild) ∧
    ∀ commit, event = .created o.nChild commit → kc.commitWithKeyIndex o.value o.nChild = .ok commit

/-- What holds of the record under a key after a history. -/
structure Tracked (kc : Keychain env) (history : List Event) (k : String) (o : OutputData) :
    Prop where
  key : o.keyId = k
  root : o.rootKeyId = kc.rootKeyId.hexValue
  derived : ∃ id, kc.deriveKeyId o.nChild = .ok id ∧ o.keyId = id.hexValue
  one_le : 1 ≤ o.nChild.toNat
  le_count : o.nChild.toNat ≤ createdCount history
  found : Found kc history o

/-- Every record of a wallet is tracked. -/
def AllTracked (kc : Keychain env) (history : List Event) (data : WalletData) : Prop :=
  ∀ k o, data.outputs.lookup k = some o → Tracked kc history k o

/-- An operation that does not take the same index keeps a record tracked. -/
theorem Tracked.snoc {history : List Event} {k : String} {o o' : OutputData} {event : Event}
    (h : Tracked kc history k o) (hevolves : o.Evolves o') (hevent : event.index? ≠ some o.nChild) :
    Tracked kc (history ++ [event]) k o' where
  key := hevolves.keyId.trans h.key
  root := hevolves.rootKeyId.trans h.root
  derived := by rw [hevolves.nChild, hevolves.keyId]; exact h.derived
  one_le := hevolves.nChild ▸ h.one_le
  le_count := hevolves.nChild ▸ h.le_count.trans (createdCount_snoc_le history event)
  found := by
    obtain ⟨before, taken, after, rfl, hindex, hlast, hcommit⟩ := h.found
    rw [Found, hevolves.nChild, hevolves.value]
    refine ⟨before, taken, after ++ [event], by simp, hindex, fun later hmem => ?_, hcommit⟩
    rcases List.mem_append.mp hmem with hold | hnew
    · exact hlast later hold
    · exact List.mem_singleton.mp hnew ▸ hevent

section NextChild

variable {history : List Event} {data : WalletData}

/-- The next index is one more than the last one, as long as there are few outputs. -/
theorem AllTracked.toNat_nextChild (h : AllTracked kc history data)
    (hcount : createdCount history < 2 ^ 32 - 1) :
    (data.nextChild kc.rootKeyId).toNat = (data.lastChild kc.rootKeyId).toNat + 1 ∧
      (data.lastChild kc.rootKeyId).toNat ≤ createdCount history := by
  have hsize : UInt32.size = 2 ^ 32 := rfl
  have hbound : (UInt32.ofNat (createdCount history)).toNat = createdCount history :=
    UInt32.toNat_ofNat_of_lt' (by omega)
  have hle : (data.lastChild kc.rootKeyId).toNat ≤ createdCount history := by
    rw [← hbound]
    refine UInt32.le_iff_toNat_le.mp (lastChild_le fun k o ho => UInt32.le_iff_toNat_le.mpr ?_)
    rw [hbound]
    exact (h k o ho).le_count
  refine ⟨?_, hle⟩
  have hone : (1 : UInt32).toNat = 1 := rfl
  rw [WalletData.nextChild, UInt32.toNat_add, hone]
  omega

/-- The next index is larger than that of every record. -/
theorem AllTracked.nChild_lt (h : AllTracked kc history data)
    (hcount : createdCount history < 2 ^ 32 - 1) {k : String} {o : OutputData}
    (ho : data.outputs.lookup k = some o) :
    o.nChild.toNat < (data.nextChild kc.rootKeyId).toNat := by
  have hle := UInt32.le_iff_toNat_le.mp (le_lastChild ho (h k o ho).root)
  have := (h.toNat_nextChild hcount).1
  omega

/-- No record is filed under the key id of the next index. -/
theorem AllTracked.lookup_next (h : AllTracked kc history data) (hdistinct : kc.Distinct)
    (hcount : createdCount history < 2 ^ 32 - 1) {id : Identifier}
    (hid : kc.deriveKeyId (data.nextChild kc.rootKeyId) = .ok id) :
    data.outputs.lookup id.hexValue = none := by
  by_contra hne
  obtain ⟨o, ho⟩ := Option.ne_none_iff_exists'.mp hne
  have htracked := h _ o ho
  obtain ⟨id', hid', hhex⟩ := htracked.derived
  obtain rfl : id' = id := Identifier.hexValue_injective (hhex.symm.trans htracked.key)
  have hindex := hdistinct _ _ _ hid' hid
  have hlt := h.nChild_lt hcount ho
  rw [hindex] at hlt
  exact lt_irrefl _ hlt

end NextChild

/-! ## Runs -/

section Runs

variable {history : List Event}

/-- A new record keeps the others tracked and is tracked itself. -/
theorem allTracked_recording (hdistinct : kc.Distinct) (hplain : kc.Plain)
    (hcount : createdCount history < 2 ^ 32 - 1) {file file' : WalletFile} {event : Event}
    {index : UInt32} {data data' : WalletData} {o : OutputData} {keyId : Identifier}
    (h : AllTracked kc history data) (hindex : event.index? = some index)
    (hrecording : Recording kc file index file' data data' o keyId)
    (hcommitted : ∀ commit, event = .created index commit → kc.commit o.value keyId = .ok commit) :
    AllTracked kc (history ++ [event]) data' := by
  have hnext := hrecording.next
  intro k r hr
  rw [lookup_addOutput hrecording.added] at hr
  split at hr
  · next hk =>
    obtain rfl := Option.some.inj hr
    obtain ⟨hsucc, hlast⟩ := h.toNat_nextChild hcount
    rw [← hnext, ← hrecording.child] at hsucc
    refine ⟨hk.symm, hrecording.root, ⟨keyId, ?_, hrecording.filed⟩, by omega, ?_, ?_⟩
    · rw [hrecording.child]
      exact hrecording.derived
    · rw [createdCount_snoc history hindex]
      omega
    · refine ⟨history, event, [], rfl, by rw [hrecording.child, hindex], ?_, fun commit he => ?_⟩
      · exact fun _ hmem => absurd hmem List.not_mem_nil
      · rw [hrecording.child] at he ⊢
        exact commitWithKeyIndex_of_commit hdistinct hplain hrecording.derived (hcommitted commit he)
  · refine (h k r hr).snoc (.refl r) fun he => ?_
    -- the new index is larger than that of every record
    have hlt := h.nChild_lt hcount hr
    rw [← hnext, Option.some.inj (hindex.symm.trans he)] at hlt
    exact lt_irrefl _ hlt

/-- An operation that neither records nor deletes updates the records in place. -/
theorem exists_evolves {w w' : World} (h : Completed kc w .other w') :
    ∃ data data', w.file.readOrCreate = .ok data ∧ w'.file.readOrCreate = .ok data' ∧
      data.Evolves data' := by
  cases h with
  | locked h =>
    obtain ⟨data, data', hread, hlock, rfl⟩ := SenderLemmas.updateWallet_eq_ok h
    exact ⟨data, data', hread, rfl, evolves_lockCoins hlock⟩
  | refreshed h => exact CheckerLemmas.evolves_refreshOutputs h

/-- Every operation keeps the records tracked. -/
theorem tracked_of_completed (hdistinct : kc.Distinct) (hplain : kc.Plain)
    (hcount : createdCount history < 2 ^ 32 - 1) {w w' : World} {event : Event}
    (hstep : Completed kc w event w') (h : w.file.Satisfies (AllTracked kc history)) :
    w'.file.Satisfies (AllTracked kc (history ++ [event])) := by
  have hrecorded : ∀ index, event.index? = some index →
      w'.file.Satisfies (AllTracked kc (history ++ [event])) := by
    intro index hindex
    obtain ⟨data, data', o, keyId, hrecording, hcommitted⟩ := exists_recording hstep hindex
    rw [hrecording.written, satisfies_stored]
    exact allTracked_recording hdistinct hplain hcount (h data hrecording.read) hindex hrecording
      hcommitted
  cases event with
  | created index commit => exact hrecorded index rfl
  | recorded index => exact hrecorded index rfl
  | removed keyId =>
    cases hstep with
    | removed hremove =>
      obtain ⟨data, data', hread, hdelete, rfl⟩ := withWallet_eq_ok hremove
      obtain ⟨-, rfl⟩ := Prod.mk.inj (Except.ok.inj hdelete)
      refine satisfies_stored.mpr fun k o ho => ?_
      rw [lookup_deleteOutput] at ho
      split at ho
      · cases ho
      · -- a removal takes no index
        exact (h data hread k o ho).snoc (.refl o) (Option.some_ne_none _).symm
  | other =>
    obtain ⟨data, data', hread, hread', hevolves⟩ := exists_evolves hstep
    intro data₁ hread₁ k o' ho'
    obtain rfl := Except.ok.inj (hread'.symm.trans hread₁)
    obtain ⟨o, ho, hevolved⟩ := lookup_of_evolves' hevolves ho'
    exact (h data hread k o ho).snoc hevolved (Option.some_ne_none _).symm

/-- In every run of operations from an empty wallet that records fewer than `2 ^ 32 - 1` outputs. -/
theorem allTracked_of_run (hdistinct : kc.Distinct) (hplain : kc.Plain) {w w' : World}
    (hempty : w.file.readOrCreate = .ok WalletData.new) (hrun : Run (Completed kc) w history w')
    (hcount : createdCount history < 2 ^ 32 - 1) : w'.file.Satisfies (AllTracked kc history) := by
  refine hrun.invariant_history (P := fun history w =>
    createdCount history < 2 ^ 32 - 1 → w.file.Satisfies (AllTracked kc history))
    (fun history w₁ event w₂ ih hstep hcount => ?_) (fun _ data hread k o ho => ?_) hcount
  · have hbefore := (createdCount_snoc_le history event).trans_lt hcount
    exact tracked_of_completed hdistinct hplain hbefore hstep (ih hbefore)
  · obtain rfl := Except.ok.inj (hempty.symm.trans hread)
    cases ho

/-- Records filed under derived key ids are filed under the hex of identifiers. -/
theorem AllTracked.filed {data : WalletData} (h : AllTracked kc history data) : data.Filed := by
  intro k o ho
  obtain ⟨id, hid, hhex⟩ := (h k o ho).derived
  obtain ⟨child, hchild⟩ := Keychain.deriveKeyId_eq_ok.mp hid
  have hlength := ExtendedKey.length_of_identifier (ExtendedKey.deriveIdent_eq_ok.mp hchild).2
  have hkey : id.hexValue = k := hhex.symm.trans (h k o ho).key
  exact ⟨(h k o ho).key, id, hkey ▸ Identifier.fromHex_hexValue hlength.le, hkey⟩

/-- A wallet whose outputs can be found: every record is filed under the key id of its index, no
index is used twice or is 0, the next key is free, and a refresh asks for the commitment of the
output that was put into a transaction or a coinbase, where one was. -/
structure Traceable (kc : Keychain env) (history : List Event) (data : WalletData) : Prop where
  key : ∀ k o, data.outputs.lookup k = some o → o.keyId = k
  derived : ∀ k o, data.outputs.lookup k = some o →
    ∃ id, kc.deriveKeyId o.nChild = .ok id ∧ o.keyId = id.hexValue
  one_le : ∀ k o, data.outputs.lookup k = some o → 1 ≤ o.nChild.toNat
  distinct : ∀ k k' o o', data.outputs.lookup k = some o → data.outputs.lookup k' = some o' →
    k ≠ k' → o.nChild ≠ o'.nChild
  next : ∀ id o, kc.deriveKeyId (data.nextChild kc.rootKeyId) = .ok id → o.keyId = id.hexValue →
    ∃ data', data.addOutput o = .ok data'
  found : ∀ k o, data.outputs.lookup k = some o → Found kc history o

/-- In every run of operations from an empty wallet that records fewer than `2 ^ 32 - 1` outputs, all
outputs can be found. -/
theorem traceable_of_run (hdistinct : kc.Distinct) (hplain : kc.Plain) {w w' : World}
    (hempty : w.file.readOrCreate = .ok WalletData.new) (hrun : Run (Completed kc) w history w')
    (hcount : createdCount history < 2 ^ 32 - 1) : w'.file.Satisfies (Traceable kc history) := by
  intro data hread
  have hall := allTracked_of_run hdistinct hplain hempty hrun hcount data hread
  refine
    { key := fun k o ho => (hall k o ho).key
      derived := fun k o ho => (hall k o ho).derived
      one_le := fun k o ho => (hall k o ho).one_le
      distinct := fun k k' o o' ho ho' hk hsame => ?_
      next := fun id o hid hkey => ?_
      found := fun k o ho => (hall k o ho).found }
  · obtain ⟨id, hid, hhex⟩ := (hall k o ho).derived
    obtain ⟨id', hid', hhex'⟩ := (hall k' o' ho').derived
    obtain rfl : id = id' := by
      rw [hsame, hid'] at hid
      exact (Except.ok.inj hid).symm
    exact hk (((hall k o ho).key.symm.trans hhex).trans (hhex'.symm.trans (hall k' o' ho').key))
  · have hfree := hall.lookup_next hdistinct hcount hid
    obtain ⟨outputs, hadd⟩ := Dictionary.exists_add o (hkey ▸ hfree)
    exact ⟨⟨outputs⟩, addOutput_eq_ok_iff.mpr hadd⟩

end Runs

/-! ### Over pairs -/

theorem distinct_pairSender : pairSender.Distinct := fun _ _ _ => Pairs.deriveKeyId_injective _

theorem plain_pairSender : pairSender.Plain := fun _ _ _ => rfl

/-- Three changes over an empty wallet: with the first one no transaction can be built, and the second
one is deleted. -/
theorem traceable_of_run_pairs : ∃ c c' w, Run (Completed pairSender)
    (Operation.pairStored WalletData.new)
    [.recorded 1, .created 2 c, .created 3 c', .removed (Operation.pairKeyId 2)] w ∧
    w.file.Satisfies (Traceable pairSender
      [.recorded 1, .created 2 c, .created 3 c', .removed (Operation.pairKeyId 2)]) := by
  have hunbuilt : Operation.PairUnbuilt WalletData.new 1 9000000 1000000 1 := by decide +kernel
  have hfirst : Operation.PairSend (Operation.pairChanged WalletData.new 1000000)
      9 9000000 1000000 2 := by decide +kernel
  have hsecond : Operation.PairSend
      (Operation.pairChanged (Operation.pairChanged WalletData.new 1000000) 1000000)
      9 8000000 2000000 3 := by decide +kernel
  have hrun := (((Run.single (Operation.unbuilt_pairs hunbuilt)).snoc
    (Operation.sent_pairs hfirst)).snoc (Operation.sent_pairs hsecond)).snoc
    (Operation.removed_pairs _ 2)
  exact ⟨_, _, _, hrun, traceable_of_run distinct_pairSender plain_pairSender rfl hrun (by decide)⟩

end GrinDotnet
