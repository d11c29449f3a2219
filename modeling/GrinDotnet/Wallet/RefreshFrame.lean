import GrinDotnet.Wallet.ConcurrentRefresh

/-!
# What one refresh changes

A refresh joins three maps: from the wallet's commitments to key ids, from the node's commitments to
its outputs, and from key ids to records. Where the records that it looks at are filed under the ids
of their indices and have distinct commitments, the answer for a record's commitment reaches that
record and no other one.

Results:
1. `exists_justified`: the three parts of a refresh make what the answer justifies.
2. `Justified.unique`: what an answer justifies is determined by it.
3. `shows_reply`: a node that looks up what it is asked for shows its UTXO set.
4. `refresh_justified`: a whole refresh, another order of the answer, and a second refresh.
-/

namespace GrinDotnet

open BigEndian Outcome WorldLemmas WalletLemmas CheckerLemmas

variable {env : Env}

namespace Checker

/-- The records a refresh looks at are filed under the ids of their indices, and distinct indices
have distinct commitments. -/
structure Derived (kc : Keychain env) (data : WalletData) : Prop where
  keyId : ∀ k o, data.outputs.lookup k = some o → tracked kc o = true →
    k = o.keyId ∧ ∃ id, kc.deriveKeyId o.nChild = .ok id ∧ id.hexValue = o.keyId
  commit : ∀ k o, data.outputs.lookup k = some o → tracked kc o = true →
    ∃ c, kc.commitWithKeyIndex o.value o.nChild = .ok c
  distinct : ∀ k k' o o' c, data.outputs.lookup k = some o → data.outputs.lookup k' = some o' →
    tracked kc o = true → tracked kc o' = true →
    kc.commitWithKeyIndex o.value o.nChild = .ok c →
    kc.commitWithKeyIndex o'.value o'.nChild = .ok c → o.nChild = o'.nChild

/-- What an answer of the node justifies to change in a wallet. -/
structure Justified (kc : Keychain env) (outputs : List ApiOutput) (data data' : WalletData) :
    Prop where
  keys : data'.outputs.keys = data.outputs.keys
  untouched : ∀ k o, data.outputs.lookup k = some o →
    o.rootKeyId ≠ kc.rootKeyId.hexValue ∨ o.status = .spent → data'.outputs.lookup k = some o
  identity : ∀ k o o', data.outputs.lookup k = some o → data'.outputs.lookup k = some o' →
    o'.rootKeyId = o.rootKeyId ∧ o'.keyId = o.keyId ∧ o'.nChild = o.nChild ∧
      o'.value = o.value ∧ o'.isCoinbase = o.isCoinbase
  answered : ∀ k o c a, data.outputs.lookup k = some o → o.rootKeyId = kc.rootKeyId.hexValue →
    o.status ≠ .spent → kc.commitWithKeyIndex o.value o.nChild = .ok c → a ∈ outputs →
    a.commit = c.value.1 → data'.outputs.lookup k = some { o with
      height := a.height
      lockHeight := a.lockHeight
      status := if o.status = .unconfirmed then .unspent else o.status }
  missing : ∀ k o c, data.outputs.lookup k = some o → o.rootKeyId = kc.rootKeyId.hexValue →
    o.status ≠ .spent → kc.commitWithKeyIndex o.value o.nChild = .ok c →
    (∀ a ∈ outputs, a.commit ≠ c.value.1) → data'.outputs.lookup k = some { o with
      status := if o.status = .unspent ∨ o.status = .locked then .spent else o.status }

/-! ## Records -/

theorem tracked_iff {kc : Keychain env} {o : OutputData} : tracked kc o = true ↔
    o.rootKeyId = kc.rootKeyId.hexValue ∧ o.status ≠ .spent := by
  simp [tracked]

theorem not_tracked_iff {kc : Keychain env} {o : OutputData} : tracked kc o = false ↔
    o.rootKeyId ≠ kc.rootKeyId.hexValue ∨ o.status = .spent := by
  rw [← Bool.not_eq_true, tracked_iff, not_and_or, not_not]

theorem refreshed_some (a : ApiOutput) (o : OutputData) : refreshed (some a) o = { o with
    height := a.height
    lockHeight := a.lockHeight
    status := if o.status = .unconfirmed then .unspent else o.status } := by
  rw [refreshed, refreshOutput]
  cases o.status <;> rfl

theorem refreshed_none (o : OutputData) : refreshed none o = { o with
    status := if o.status = .unspent ∨ o.status = .locked then .spent else o.status } := by
  rw [refreshed, markSpentOutput]
  cases o.status <;> rfl

/-- What identifies a record does not change. -/
theorem identity_refreshed (answer : Option ApiOutput) (o : OutputData) :
    (refreshed answer o).rootKeyId = o.rootKeyId ∧ (refreshed answer o).keyId = o.keyId ∧
      (refreshed answer o).nChild = o.nChild ∧ (refreshed answer o).value = o.value ∧
      (refreshed answer o).isCoinbase = o.isCoinbase := by
  cases answer <;> exact ⟨rfl, rfl, rfl, rfl, rfl⟩

/-! ## The loop -/

section Loop

variable {s : Snapshot} {answers : Dictionary String ApiOutput} {data data' : WalletData}

theorem keys_apply (h : apply s answers data = .ok data') :
    data'.outputs.keys = data.outputs.keys := by
  refine foldlM_preserves (P := fun d => d.outputs.keys = data.outputs.keys)
    (fun d commit d' _ hd hstep => ?_) h rfl
  unfold applyStep at hstep
  split at hstep
  · cases hstep
  · cases hstep
    exact (Dictionary.keys_modify _ _ _).trans hd

/-- The loop answers when every commitment has a key id. -/
theorem exists_apply (h : ∀ commit ∈ s.commits, ∃ id, s.walletOutputs.lookup commit.hex = some id)
    (answers : Dictionary String ApiOutput) (data : WalletData) :
    ∃ data', apply s answers data = .ok data' := by
  refine exists_foldlM (fun commit hcommit d => ?_) data
  obtain ⟨id, hid⟩ := h commit hcommit
  rw [applyStep, hid]
  exact ⟨_, rfl⟩

end Loop

/-! ## The snapshot -/

/-- A snapshot of these records: their commitments, and the key id of each. -/
structure Records (kc : Keychain env) (ops : List OutputData) (s : Snapshot) : Prop where
  commits : ∀ c, c ∈ s.commits ↔ ∃ o ∈ ops, kc.commitWithKeyIndex o.value o.nChild = .ok c
  walletOutputs : ∀ (c : Commitment) id, s.walletOutputs.lookup c.hex = some id ↔
    ∃ o ∈ ops, kc.commitWithKeyIndex o.value o.nChild = .ok c ∧ Identifier.fromHex o.keyId = .ok id

/-- One more record, whose commitment is new. -/
theorem Records.snoc {kc : Keychain env} {ops : List OutputData} {s : Snapshot}
    (h : Records kc ops s) {op : OutputData} {c : Commitment} {id : Identifier}
    (hc : kc.commitWithKeyIndex op.value op.nChild = .ok c)
    (hid : Identifier.fromHex op.keyId = .ok id)
    (hnew : ∀ o ∈ ops, kc.commitWithKeyIndex o.value o.nChild ≠ .ok c) :
    ∃ s', snapshotStep kc s op = .ok s' ∧ Records kc (ops ++ [op]) s' := by
  -- `walletOutputs.Add` raises on a commitment that it has already
  have hfree : s.walletOutputs.lookup c.hex = none := by
    rw [Option.eq_none_iff_forall_ne_some]
    intro id' hid'
    obtain ⟨o, ho, hcommit, -⟩ := (h.walletOutputs c id').mp hid'
    exact hnew o ho hcommit
  obtain ⟨walletOutputs, hadd⟩ := Dictionary.exists_add id hfree
  refine ⟨⟨s.commits ++ [c], walletOutputs⟩, ?_, fun c' => ?_, fun c' id' => ?_⟩
  · rw [snapshotStep, hc, ok_bind, hid, ok_bind, hadd]
    rfl
  · simp only [List.mem_append, List.mem_singleton, h.commits, or_and_right, exists_or,
      exists_eq_left, hc, Except.ok.injEq]
    rw [eq_comm (a := c')]
  · rw [Dictionary.lookup_add hadd]
    simp only [List.mem_append, List.mem_singleton, or_and_right, exists_or, exists_eq_left, hc, hid,
      Except.ok.injEq]
    rw [← h.walletOutputs]
    by_cases hsame : c' = c
    · rw [if_pos (congrArg Commitment.hex hsame), hsame, hfree]
      simp
    · have hne : ¬ c = c' := fun he => hsame he.symm
      rw [if_neg fun he => hsame (Commitment.hex_injective he)]
      simp [hne]

/-- Records with distinct commitments make a snapshot. -/
theorem exists_records {kc : Keychain env} {ops : List OutputData}
    (hcommit : ∀ o ∈ ops, ∃ c, kc.commitWithKeyIndex o.value o.nChild = .ok c)
    (hid : ∀ o ∈ ops, ∃ id, Identifier.fromHex o.keyId = .ok id)
    (hdistinct : ops.Pairwise fun o o' => ∀ c, kc.commitWithKeyIndex o.value o.nChild = .ok c →
      kc.commitWithKeyIndex o'.value o'.nChild ≠ .ok c) :
    ∃ s, ops.foldlM (snapshotStep kc) ⟨[], Dictionary.empty⟩ = .ok s ∧ Records kc ops s := by
  induction ops using List.reverseRecOn with
  | nil => exact ⟨_, rfl, by simp, by simp⟩
  | append_singleton ops op ih =>
    rw [List.pairwise_append] at hdistinct
    obtain ⟨hold, -, hnew⟩ := hdistinct
    obtain ⟨s, hs, hrecords⟩ := ih (fun o ho => hcommit o (List.mem_append_left _ ho))
      (fun o ho => hid o (List.mem_append_left _ ho)) hold
    have hlast : op ∈ ops ++ [op] := List.mem_append_right _ (List.mem_singleton_self _)
    obtain ⟨c, hc⟩ := hcommit op hlast
    obtain ⟨id, hopid⟩ := hid op hlast
    obtain ⟨s', hs', hrecords'⟩ := hrecords.snoc hc hopid fun o ho hco =>
      hnew o ho op (List.mem_singleton_self _) c hco hc
    exact ⟨s', foldlM_snoc_eq_ok.mpr ⟨s, hs, hs'⟩, hrecords'⟩

section Derived

variable {kc : Keychain env} {data : WalletData}

theorem mem_tracked {o : OutputData} : o ∈ data.outputs.values.filter (tracked kc) ↔
    ∃ k, data.outputs.lookup k = some o ∧ tracked kc o = true := by
  rw [List.mem_filter, Dictionary.mem_values_iff, exists_and_right]

/-- The key of a record that a refresh looks at is read back from its key id. -/
theorem Derived.fromHex (h : Derived kc data) {k : String} {o : OutputData}
    (ho : data.outputs.lookup k = some o) (htracked : tracked kc o = true) :
    ∃ id, Identifier.fromHex o.keyId = .ok id ∧ id.hexValue = k := by
  obtain ⟨hkey, id, hid, hhex⟩ := h.keyId k o ho htracked
  obtain ⟨child, hchild⟩ := Keychain.deriveKeyId_eq_ok.mp hid
  have hlength := ExtendedKey.length_of_identifier (ExtendedKey.deriveIdent_eq_ok.mp hchild).2
  exact ⟨id, hhex ▸ Identifier.fromHex_hexValue hlength.le, hhex.trans hkey.symm⟩

/-- Two records that a refresh looks at with one commitment are one record. -/
theorem Derived.eq_of_commit (h : Derived kc data) {k k' : String} {o o' : OutputData}
    (ho : data.outputs.lookup k = some o) (ho' : data.outputs.lookup k' = some o')
    (htracked : tracked kc o = true) (htracked' : tracked kc o' = true) {c : Commitment}
    (hc : kc.commitWithKeyIndex o.value o.nChild = .ok c)
    (hc' : kc.commitWithKeyIndex o'.value o'.nChild = .ok c) : k = k' := by
  obtain ⟨hkey, id, hid, hhex⟩ := h.keyId k o ho htracked
  obtain ⟨hkey', id', hid', hhex'⟩ := h.keyId k' o' ho' htracked'
  rw [h.distinct k k' o o' c ho ho' htracked htracked' hc hc', hid'] at hid
  obtain rfl := Except.ok.inj hid
  rw [hkey, hkey', ← hhex, ← hhex']

/-- The records a refresh looks at make a snapshot. -/
theorem Derived.exists_snapshot (h : Derived kc data) : ∃ s, snapshot kc data = .ok s ∧
    Records kc (data.outputs.values.filter (tracked kc)) s := by
  refine exists_records (fun o ho => ?_) (fun o ho => ?_) ?_
  · obtain ⟨k, hk, htracked⟩ := mem_tracked.mp ho
    exact h.commit k o hk htracked
  · obtain ⟨k, hk, htracked⟩ := mem_tracked.mp ho
    obtain ⟨id, hid, -⟩ := h.fromHex hk htracked
    exact ⟨id, hid⟩
  · rw [List.pairwise_filter, Dictionary.values, List.pairwise_map]
    refine (List.pairwise_map.mp data.outputs.nodup).imp_of_mem ?_
    intro e e' he he' hne htracked htracked' c hc hc'
    exact hne (h.eq_of_commit (Dictionary.mem_entries_iff.mp he) (Dictionary.mem_entries_iff.mp he')
      htracked htracked' hc hc')

section Records

variable {s : Snapshot} (hderived : Derived kc data)
  (hrecords : Records kc (data.outputs.values.filter (tracked kc)) s)

include hderived hrecords

theorem exists_entry {commit : Commitment} (hcommit : commit ∈ s.commits) :
    ∃ id, s.walletOutputs.lookup commit.hex = some id := by
  obtain ⟨o, ho, hc⟩ := (hrecords.commits commit).mp hcommit
  obtain ⟨k, hk, htracked⟩ := mem_tracked.mp ho
  obtain ⟨id, hid, -⟩ := hderived.fromHex hk htracked
  exact ⟨id, (hrecords.walletOutputs commit id).mpr ⟨o, ho, hc, hid⟩⟩

/-- The key of an entry is that of the record whose commitment it has. -/
theorem record_of_entry {commit : Commitment} {id : Identifier}
    (h : s.walletOutputs.lookup commit.hex = some id) :
    ∃ o, data.outputs.lookup id.hexValue = some o ∧ tracked kc o = true ∧
      kc.commitWithKeyIndex o.value o.nChild = .ok commit := by
  obtain ⟨o, ho, hc, hid⟩ := (hrecords.walletOutputs commit id).mp h
  obtain ⟨k, hk, htracked⟩ := mem_tracked.mp ho
  obtain ⟨id', hid', rfl⟩ := hderived.fromHex hk htracked
  obtain rfl := Except.ok.inj (hid.symm.trans hid')
  exact ⟨o, hk, htracked, hc⟩

variable {k : String} {o : OutputData} (ho : data.outputs.lookup k = some o)

include ho

theorem sound_of_records {c : Commitment} (hc : kc.commitWithKeyIndex o.value o.nChild = .ok c) :
    Sound s k c := by
  intro commit hcommit
  obtain ⟨id, hid⟩ := exists_entry hderived hrecords hcommit
  refine ⟨id, hid, ?_⟩
  rintro rfl
  obtain ⟨o', ho', -, hc'⟩ := record_of_entry hderived hrecords hid
  obtain rfl := Option.some.inj (ho.symm.trans ho')
  exact Except.ok.inj (hc'.symm.trans hc)

variable {answers : Dictionary String ApiOutput} {data' : WalletData}
  (happly : apply s answers data = .ok data')

include happly

/-- A record that the refresh looks at takes the answer for its commitment. -/
theorem lookup_apply_of_tracked {c : Commitment} (htracked : tracked kc o = true)
    (hc : kc.commitWithKeyIndex o.value o.nChild = .ok c) :
    data'.outputs.lookup k = some (refreshed (answers.lookup c.hex) o) := by
  have hmem := mem_tracked.mpr ⟨k, ho, htracked⟩
  obtain ⟨id, hid, hkey⟩ := hderived.fromHex ho htracked
  have hconcerns : Concerns s k c := ⟨(hrecords.commits c).mpr ⟨o, hmem, hc⟩, id,
    (hrecords.walletOutputs c id).mpr ⟨o, hmem, hc, hid⟩, hkey⟩
  have hsound := sound_of_records hderived hrecords ho hc
  rw [lookup_apply_of_concerns happly hsound hconcerns, ho, Option.map_some]

/-- Any other record stays as it is. -/
theorem lookup_apply_of_not_tracked (hnot : tracked kc o = false) :
    data'.outputs.lookup k = some o := by
  rw [lookup_apply_of_other happly, ho]
  rintro commit - id hid rfl
  obtain ⟨o', ho', htracked, -⟩ := record_of_entry hderived hrecords hid
  obtain rfl := Option.some.inj (ho.symm.trans ho')
  rw [hnot] at htracked
  cases htracked

end Records

end Derived

/-! ## What an answer justifies -/

section Justified

variable {kc : Keychain env} {outputs : List ApiOutput} {data data' : WalletData}

/-- The three parts of a refresh make what the answer justifies. -/
theorem exists_justified (hderived : Derived kc data) (h : (outputs.map (·.commit)).Nodup) :
    ∃ s answers data', snapshot kc data = .ok s ∧ apiOutputs outputs = .ok answers ∧
      apply s answers data = .ok data' ∧ Justified kc outputs data data' := by
  obtain ⟨s, hs, hrecords⟩ := hderived.exists_snapshot
  obtain ⟨answers, hanswers⟩ := exists_apiOutputs h
  obtain ⟨data', happly⟩ :=
    exists_apply (fun _ hcommit => exists_entry hderived hrecords hcommit) answers data
  have hother := fun k o (ho : data.outputs.lookup k = some o) =>
    lookup_apply_of_not_tracked hderived hrecords ho happly
  have hown := fun k o (ho : data.outputs.lookup k = some o) c =>
    lookup_apply_of_tracked hderived hrecords ho happly (c := c)
  refine ⟨s, answers, data', hs, hanswers, happly, {
    keys := keys_apply happly
    untouched := fun k o ho hnot => hother k o ho (not_tracked_iff.mpr hnot)
    identity := fun k o o' ho ho' => ?_
    answered := fun k o c a ho hroot hstatus hc ha hcommit => ?_
    missing := fun k o c ho hroot hstatus hc hnone => ?_ }⟩
  · cases htracked : tracked kc o with
    | false =>
      rw [hother k o ho htracked] at ho'
      obtain rfl := Option.some.inj ho'
      exact ⟨rfl, rfl, rfl, rfl, rfl⟩
    | true =>
      obtain ⟨c, hc⟩ := hderived.commit k o ho htracked
      rw [hown k o ho c htracked hc] at ho'
      obtain rfl := Option.some.inj ho'
      exact identity_refreshed (answers.lookup c.hex) o
  · have hanswer : answers.lookup c.hex = some a :=
      (lookup_apiOutputs_eq_some hanswers).mpr ⟨ha, hcommit⟩
    rw [hown k o ho c (tracked_iff.mpr ⟨hroot, hstatus⟩) hc, hanswer, refreshed_some]
  · have hanswer : answers.lookup c.hex = none := by
      rw [Option.eq_none_iff_forall_ne_some]
      intro a ha
      obtain ⟨ha, hcommit⟩ := (lookup_apiOutputs_eq_some hanswers).mp ha
      exact hnone a ha hcommit
    rw [hown k o ho c (tracked_iff.mpr ⟨hroot, hstatus⟩) hc, hanswer, refreshed_none]

/-- What an answer justifies is determined by it. -/
theorem Justified.unique (hderived : Derived kc data) (h : Justified kc outputs data data')
    {data'' : WalletData} (h' : Justified kc outputs data data'') : data'' = data' := by
  have hlookup : ∀ k, data''.outputs.lookup k = data'.outputs.lookup k := by
    intro k
    cases ho : data.outputs.lookup k with
    | none =>
      rw [Dictionary.lookup_eq_none_iff] at ho
      have hnone : data'.outputs.lookup k = none := by
        rwa [Dictionary.lookup_eq_none_iff, h.keys]
      have hnone' : data''.outputs.lookup k = none := by
        rwa [Dictionary.lookup_eq_none_iff, h'.keys]
      rw [hnone, hnone']
    | some o =>
      cases htracked : tracked kc o with
      | false =>
        have hnot := not_tracked_iff.mp htracked
        rw [h.untouched k o ho hnot, h'.untouched k o ho hnot]
      | true =>
        obtain ⟨hroot, hstatus⟩ := tracked_iff.mp htracked
        obtain ⟨c, hc⟩ := hderived.commit k o ho htracked
        -- either clause fixes the whole record, and one of them applies
        by_cases hanswer : ∃ a ∈ outputs, a.commit = c.value.1
        · obtain ⟨a, ha, hcommit⟩ := hanswer
          rw [h.answered k o c a ho hroot hstatus hc ha hcommit,
            h'.answered k o c a ho hroot hstatus hc ha hcommit]
        · have hnone : ∀ a ∈ outputs, a.commit ≠ c.value.1 := fun a ha hcommit =>
            hanswer ⟨a, ha, hcommit⟩
          rw [h.missing k o c ho hroot hstatus hc hnone, h'.missing k o c ho hroot hstatus hc hnone]
  have houtputs := Dictionary.eq_of_lookup (h'.keys.trans h.keys.symm) hlookup
  cases data'
  cases data''
  exact congrArg WalletData.mk houtputs

/-- The order of the answer does not matter. -/
theorem Justified.perm (h : Justified kc outputs data data') {outputs' : List ApiOutput}
    (hperm : outputs'.Perm outputs) : Justified kc outputs' data data' where
  keys := h.keys
  untouched := h.untouched
  identity := h.identity
  answered k o c a ho hroot hstatus hc ha :=
    h.answered k o c a ho hroot hstatus hc (hperm.mem_iff.mp ha)
  missing k o c ho hroot hstatus hc hnone := h.missing k o c ho hroot hstatus hc fun a ha =>
    hnone a (hperm.mem_iff.mpr ha)

/-- A record that a refresh still looks at was one it looked at before. -/
theorem Justified.before (h : Justified kc outputs data data') {k : String} {o' : OutputData}
    (ho' : data'.outputs.lookup k = some o') (htracked' : tracked kc o' = true) :
    ∃ o, data.outputs.lookup k = some o ∧ tracked kc o = true ∧ o'.keyId = o.keyId ∧
      o'.nChild = o.nChild ∧ o'.value = o.value := by
  have hmem : k ∈ data.outputs.keys := h.keys ▸ Dictionary.mem_keys_iff.mpr ⟨o', ho'⟩
  obtain ⟨o, ho⟩ := Dictionary.mem_keys_iff.mp hmem
  obtain ⟨-, hkeyId, hchild, hvalue, -⟩ := h.identity k o o' ho ho'
  refine ⟨o, ho, ?_, hkeyId, hchild, hvalue⟩
  cases htracked : tracked kc o with
  | true => rfl
  | false =>
    have hsame := h.untouched k o ho (not_tracked_iff.mp htracked)
    obtain rfl := Option.some.inj (ho'.symm.trans hsame)
    rw [htracked] at htracked'
    cases htracked'

/-- What was derived stays so. -/
theorem Justified.derived (hderived : Derived kc data) (h : Justified kc outputs data data') :
    Derived kc data' where
  keyId k o' ho' htracked' := by
    obtain ⟨o, ho, htracked, hkeyId, hchild, -⟩ := h.before ho' htracked'
    rw [hkeyId, hchild]
    exact hderived.keyId k o ho htracked
  commit k o' ho' htracked' := by
    obtain ⟨o, ho, htracked, -, hchild, hvalue⟩ := h.before ho' htracked'
    rw [hchild, hvalue]
    exact hderived.commit k o ho htracked
  distinct k₁ k₂ o₁' o₂' c ho₁' ho₂' htracked₁' htracked₂' := by
    obtain ⟨o₁, ho₁, htracked₁, -, hchild₁, hvalue₁⟩ := h.before ho₁' htracked₁'
    obtain ⟨o₂, ho₂, htracked₂, -, hchild₂, hvalue₂⟩ := h.before ho₂' htracked₂'
    rw [hchild₁, hvalue₁, hchild₂, hvalue₂]
    exact hderived.distinct k₁ k₂ o₁ o₂ c ho₁ ho₂ htracked₁ htracked₂

/-- The answer shows, of the outputs the wallet asks for, those that are in the node's UTXO set. -/
def Shows (kc : Keychain env) (data : WalletData) (utxo outputs : List ApiOutput) : Prop :=
  ∀ k o c a, data.outputs.lookup k = some o → tracked kc o = true →
    kc.commitWithKeyIndex o.value o.nChild = .ok c → a.commit = c.value.1 →
    (a ∈ outputs ↔ a ∈ utxo)

/-- The answer of a node that looks up what it is asked for does. -/
theorem shows_reply {s : Snapshot} (hrecords : Records kc (data.outputs.values.filter (tracked kc)) s)
    (utxo : List ApiOutput) : Shows kc data utxo (reply utxo s) := by
  intro k o c a ho htracked hc hcommit
  have hmem := mem_tracked.mpr ⟨k, ho, htracked⟩
  have hasked : a.commit ∈ s.commits.map fun c => c.value.1 :=
    hcommit ▸ List.mem_map_of_mem ((hrecords.commits c).mpr ⟨o, hmem, hc⟩)
  rw [reply, List.mem_filter, decide_eq_true_eq]
  exact ⟨And.left, fun ha => ⟨ha, hasked⟩⟩

/-- After a refresh, one against the same UTXO set has nothing to do. -/
theorem Justified.again (h : Justified kc outputs data data') {utxo outputs' : List ApiOutput}
    (hshows : Shows kc data utxo outputs) (hshows' : Shows kc data' utxo outputs') :
    Justified kc outputs' data' data' where
  keys := rfl
  untouched _ _ ho' _ := ho'
  identity k o o' ho ho' := by
    obtain rfl := Option.some.inj (ho.symm.trans ho')
    exact ⟨rfl, rfl, rfl, rfl, rfl⟩
  answered k o' c a ho' hroot' hstatus' hc' ha hcommit := by
    have htracked' := tracked_iff.mpr ⟨hroot', hstatus'⟩
    obtain ⟨o, ho, htracked, -, hchild, hvalue⟩ := h.before ho' htracked'
    obtain ⟨hroot, hstatus⟩ := tracked_iff.mp htracked
    have hc : kc.commitWithKeyIndex o.value o.nChild = .ok c := hchild ▸ hvalue ▸ hc'
    have hunspent := (hshows' k o' c a ho' htracked' hc' hcommit).mp ha
    have hfirst := h.answered k o c a ho hroot hstatus hc
      ((hshows k o c a ho htracked hc hcommit).mpr hunspent) hcommit
    rw [← refreshed_some] at hfirst ⊢
    obtain rfl := Option.some.inj (ho'.symm.trans hfirst)
    rw [refreshed_refreshed, hfirst]
  missing k o' c ho' hroot' hstatus' hc' hnone := by
    have htracked' := tracked_iff.mpr ⟨hroot', hstatus'⟩
    obtain ⟨o, ho, htracked, -, hchild, hvalue⟩ := h.before ho' htracked'
    obtain ⟨hroot, hstatus⟩ := tracked_iff.mp htracked
    have hc : kc.commitWithKeyIndex o.value o.nChild = .ok c := hchild ▸ hvalue ▸ hc'
    have hspent : ∀ a ∈ outputs, a.commit ≠ c.value.1 := by
      intro a ha hcommit
      have hunspent := (hshows k o c a ho htracked hc hcommit).mp ha
      exact hnone a ((hshows' k o' c a ho' htracked' hc' hcommit).mpr hunspent) hcommit
    have hfirst := h.missing k o c ho hroot hstatus hc hspent
    rw [← refreshed_none] at hfirst ⊢
    obtain rfl := Option.some.inj (ho'.symm.trans hfirst)
    rw [refreshed_refreshed, hfirst]

end Justified

/-! ## The whole refresh -/

/-- The node answers, and nothing else happens to the refresh. -/
structure Undisturbed (script : RefreshScript) (outputs : List ApiOutput) (w : World) : Prop where
  readFault : script.readFault = none
  answer : script.answer = .outputs outputs
  fault : script.attempt.fault = none
  lock : w.lockHeld = true → script.attempt.finalizer = true

/-- An undisturbed refresh returns, and stores what its three parts make. -/
theorem refreshOutputs_of_undisturbed {script : RefreshScript} {config : WalletConfig}
    {kc : Keychain env} {outputs : List ApiOutput} {w : World} {data data' : WalletData}
    {s : Snapshot} {answers : Dictionary String ApiOutput} (h : Undisturbed script outputs w)
    (hread : w.file.readOrCreate = .ok data) (hs : snapshot kc data = .ok s)
    (hanswers : apiOutputs outputs = .ok answers) (happly : apply s answers data = .ok data') :
    (refreshOutputs script config kc).exec w =
      (.ok true, { w with file := .stored data', lockHeld := false }) := by
  have hsnapshot : (readWallet script.readFault (snapshot kc)).exec w = (.ok s, w) := by
    rw [readWallet_of_read _ h.readFault hread, hs]
  rw [refreshOutputs, WalletM.exec_bind_of_ok hsnapshot, h.answer]
  show ((WalletM.lift (apiOutputs outputs)) >>= _).exec w = _
  rw [hanswers, WalletM.exec_bind_of_ok (WalletM.exec_lift _ _),
    WalletM.exec_bind_of_ok (withWallet_of_none h.fault h.lock hread
      (applied_eq_ok (u := ()) |>.mpr happly))]
  rfl

/-- A refresh changes what the answer justifies and nothing else, whatever the order of the answer,
and a second one against the same UTXO set changes nothing. -/
theorem refresh_justified (config : WalletConfig) (kc : Keychain env) {w : World}
    {data : WalletData} {outputs : List ApiOutput} (hread : w.file.readOrCreate = .ok data)
    (hderived : Derived kc data) (hanswer : (outputs.map (·.commit)).Nodup) :
    ∃ data', Justified kc outputs data data' ∧
      (∀ script outputs', outputs'.Perm outputs → Undisturbed script outputs' w →
        (refreshOutputs script config kc).exec w =
          (.ok true, { w with file := .stored data', lockHeld := false })) ∧
      ∀ utxo script outputs', (outputs'.map (·.commit)).Nodup → Shows kc data utxo outputs →
        Shows kc data' utxo outputs' →
        Undisturbed script outputs' { w with file := .stored data', lockHeld := false } →
        (refreshOutputs script config kc).exec { w with file := .stored data', lockHeld := false } =
          (.ok true, { w with file := .stored data', lockHeld := false }) := by
  obtain ⟨s, answers, data', -, -, -, hjustified⟩ := exists_justified hderived hanswer
  refine ⟨data', hjustified, fun script outputs' hperm hundisturbed => ?_,
    fun utxo script outputs' hnodup hshows hshows' hundisturbed => ?_⟩
  · have hnodup := (hperm.map (·.commit)).nodup_iff.mpr hanswer
    obtain ⟨s, answers, data'', hs, hanswers, happly, hjustified'⟩ :=
      exists_justified hderived hnodup
    obtain rfl := (hjustified.perm hperm).unique hderived hjustified'
    exact refreshOutputs_of_undisturbed hundisturbed hread hs hanswers happly
  · have hderived' := hjustified.derived hderived
    obtain ⟨s, answers, data'', hs, hanswers, happly, hjustified'⟩ :=
      exists_justified hderived' hnodup
    obtain rfl := (hjustified.again hshows hshows').unique hderived' hjustified'
    exact refreshOutputs_of_undisturbed hundisturbed rfl hs hanswers happly

/-! ### Over pairs -/

/-- A locked coin. -/
def pairLocked : OutputData := { pairCoin 2 10000000 with status := .locked }

/-- A wallet of an unconfirmed coin, a locked one, a spent one, and one of another root key. -/
def pairMixed : WalletData where
  outputs :=
    { entries := [pairUnconfirmed, pairLocked, { pairCoin 3 10000000 with status := .spent },
        { pairCoin 4 10000000 with rootKeyId := "" }].map fun o => (o.keyId, o)
      nodup := by decide +kernel }

theorem derived_pairMixed : Derived pairSender pairMixed := by
  have hcases : ∀ k o, pairMixed.outputs.lookup k = some o → tracked pairSender o = true →
      k = o.keyId ∧ (o = pairUnconfirmed ∨ o = pairLocked) := by
    intro k o ho htracked
    have hmem := Dictionary.mem_entries_iff.mpr ho
    simp only [pairMixed, List.map_cons, List.map_nil, List.mem_cons, List.not_mem_nil, or_false,
      Prod.mk.injEq] at hmem
    obtain ⟨rfl, rfl⟩ | ⟨rfl, rfl⟩ | ⟨rfl, rfl⟩ | ⟨rfl, rfl⟩ := hmem
    · exact ⟨rfl, .inl rfl⟩
    · exact ⟨rfl, .inr rfl⟩
    · revert htracked
      decide +kernel
    · revert htracked
      decide +kernel
  have hunconfirmed : pairSender.commitWithKeyIndex pairUnconfirmed.value pairUnconfirmed.nChild =
      .ok pairCommit := by decide +kernel
  have hlocked : pairSender.commitWithKeyIndex pairLocked.value pairLocked.nChild =
      .ok ⟨Pairs.save 10000000 8⟩ := by decide +kernel
  have hne : pairCommit ≠ ⟨Pairs.save 10000000 8⟩ := by decide +kernel
  refine ⟨fun k o ho htracked => ?_, fun k o ho htracked => ?_,
    fun k k' o o' c ho ho' htracked htracked' hc hc' => ?_⟩
  · obtain ⟨hkey, rfl | rfl⟩ := hcases k o ho htracked
    · exact ⟨hkey, ⟨ofNat 10 7⟩, by decide +kernel, rfl⟩
    · exact ⟨hkey, ⟨ofNat 10 8⟩, by decide +kernel, rfl⟩
  · obtain ⟨-, rfl | rfl⟩ := hcases k o ho htracked
    · exact ⟨_, hunconfirmed⟩
    · exact ⟨_, hlocked⟩
  · obtain ⟨-, rfl | rfl⟩ := hcases k o ho htracked
    · obtain ⟨-, rfl | rfl⟩ := hcases k' o' ho' htracked'
      · rfl
      · rw [hunconfirmed] at hc
        rw [hlocked] at hc'
        exact absurd ((Except.ok.inj hc).trans (Except.ok.inj hc').symm) hne
    · obtain ⟨-, rfl | rfl⟩ := hcases k' o' ho' htracked'
      · rw [hlocked] at hc
        rw [hunconfirmed] at hc'
        exact absurd ((Except.ok.inj hc').trans (Except.ok.inj hc).symm) hne
      · rfl

/-- The world of that wallet. -/
def pairMixedWorld : World := ⟨.stored pairMixed, false, [], []⟩

/-- Only the unconfirmed coin is on the chain. -/
theorem refresh_justified_pairs :
    ∃ data', Justified pairSender [pairOutput] pairMixed data' ∧
      (refreshOutputs ⟨none, .outputs [pairOutput], Attempt.calm⟩ ⟨""⟩ pairSender).exec
        pairMixedWorld = (.ok true, ⟨.stored data', false, [], []⟩) ∧
      (refreshOutputs ⟨none, .outputs [pairOutput], Attempt.calm⟩ ⟨""⟩ pairSender).exec
        ⟨.stored data', false, [], []⟩ = (.ok true, ⟨.stored data', false, [], []⟩) := by
  have hanswer : ([pairOutput].map (·.commit)).Nodup := List.nodup_singleton _
  have hread : pairMixedWorld.file.readOrCreate = .ok pairMixed := rfl
  obtain ⟨data', hjustified, hrefresh, hagain⟩ :=
    refresh_justified ⟨""⟩ pairSender hread derived_pairMixed hanswer
  refine ⟨data', hjustified, ?_, ?_⟩
  · exact hrefresh _ _ (.refl _) ⟨rfl, rfl, rfl, fun h => nomatch h⟩
  · exact hagain [pairOutput] _ _ hanswer (fun _ _ _ _ _ _ _ _ => .rfl)
      (fun _ _ _ _ _ _ _ _ => .rfl) ⟨rfl, rfl, rfl, fun h => nomatch h⟩

end Checker

end GrinDotnet
