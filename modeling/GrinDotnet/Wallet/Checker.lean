import GrinDotnet.Keychain.Keychain
import GrinDotnet.Wallet.World

/-!
# Refreshing the wallet

`Checker`: a snapshot of the wallet's outputs as commitments, a query of the node, and the statuses
that follow from its answer. The snapshot is taken without the lock.

Results:
1. `evolves_apply`: a refresh updates the records in place.
2. `lookup_apiOutputs_eq_some`: what the map of the node's answers holds.
-/

namespace GrinDotnet

open BigEndian Outcome

/-- `ApiOutput`, of which the wallet reads the commitment and the heights. -/
structure ApiOutput where
  commit : Bytes
  height : UInt64
  lockHeight : UInt64
deriving DecidableEq

namespace Checker

/-- `Checker.refresh_output`. -/
def refreshOutput (od : OutputData) (apiOut : ApiOutput) : OutputData :=
  { od with
    height := apiOut.height
    lockHeight := apiOut.lockHeight
    status := match od.status with
      | .unconfirmed => .unspent
      | s => s }

/-- `Checker.mark_spent_output`. -/
def markSpentOutput (od : OutputData) : OutputData :=
  { od with
    status := match od.status with
      | .unspent => .spent
      | .locked => .spent
      | s => s }

/-- What a refresh remembers of the wallet: the commitments in order, and the key id of each. -/
structure Snapshot where
  commits : List Commitment
  walletOutputs : Dictionary String Identifier

variable {env : Env}

/-- Whether a refresh looks at a record. -/
def tracked (kc : Keychain env) (op : OutputData) : Bool :=
  decide (op.rootKeyId = kc.rootKeyId.hexValue) && decide (op.status ≠ .spent)

/-- The step of the snapshot for one record. -/
def snapshotStep (kc : Keychain env) (s : Snapshot) (op : OutputData) : Except Exn Snapshot := do
  let commit ← kc.commitWithKeyIndex op.value op.nChild
  let id ← Identifier.fromHex op.keyId
  match s.walletOutputs.add commit.hex id with
  | some walletOutputs => return ⟨s.commits ++ [commit], walletOutputs⟩
  | none => .error .argument

/-- The first closure of `refresh_outputs`: it collects the commitments to ask for. -/
def snapshot (kc : Keychain env) (walletData : WalletData) : Except Exn Snapshot :=
  (walletData.outputs.values.filter (tracked kc)).foldlM (snapshotStep kc) ⟨[], Dictionary.empty⟩

/-- What comes back from the node. -/
inductive NodeAnswer
  | unreachable
  | failureStatus
  | outputs (outputs : List ApiOutput)
  /-- The content cannot be deserialized. -/
  | malformed (e : Exn)

/-- The map of the node's outputs by commitment. -/
def apiOutputs (outputs : List ApiOutput) : Except Exn (Dictionary String ApiOutput) :=
  outputs.foldlM (fun d op =>
    match d.add (toHex op.commit) op with
    | some d' => .ok d'
    | none => .error .argument) Dictionary.empty

/-- What the answer says about one record. -/
def refreshed (answer : Option ApiOutput) (op : OutputData) : OutputData :=
  match answer with
  | some apiOutput => refreshOutput op apiOutput
  | none => markSpentOutput op

/-- The step of the second closure for one commitment: the record is updated in place. -/
def applyStep (s : Snapshot) (answers : Dictionary String ApiOutput) (walletData : WalletData)
    (commit : Commitment) : Except Exn WalletData :=
  match s.walletOutputs.lookup commit.hex with
  | none => .error .keyNotFound
  | some id =>
    .ok ⟨walletData.outputs.modify id.hexValue (refreshed (answers.lookup commit.hex))⟩

/-- The second closure of `refresh_outputs`: it works on the wallet as it is by then. -/
def apply (s : Snapshot) (answers : Dictionary String ApiOutput) (walletData : WalletData) :
    Except Exn WalletData :=
  s.commits.foldlM (applyStep s answers) walletData

/-- The second closure as `With_wallet` takes it. -/
def applied (s : Snapshot) (answers : Dictionary String ApiOutput) (walletData : WalletData) :
    Except Exn (Unit × WalletData) := do
  let walletData ← apply s answers walletData
  return ((), walletData)

/-- What the surroundings do to one refresh. -/
structure RefreshScript where
  readFault : Option Exn
  answer : NodeAnswer
  attempt : Attempt

/-- `Checker.refresh_outputs`. -/
def refreshOutputs (script : RefreshScript) (config : WalletConfig) (kc : Keychain env) :
    WalletM Bool := do
  let s ← readWallet script.readFault (snapshot kc)
  match script.answer with
  | .unreachable => return false
  | .failureStatus => return false
  | .malformed e => throw e
  | .outputs outputs => do
    let answers ← WalletM.lift (apiOutputs outputs)
    -- the wallet may have changed since the snapshot was taken
    withWallet config script.attempt (applied s answers)
    return true

end Checker

/-! ## What a refresh does to the records -/

namespace CheckerLemmas

open Checker WalletLemmas WorldLemmas

variable {env : Env}

theorem evolves_refreshed (answer : Option ApiOutput) (o : OutputData) :
    o.Evolves (refreshed answer o) := by
  cases answer with
  | none =>
    refine ⟨rfl, rfl, rfl, rfl, ?_⟩
    rintro (h | h) <;> simp [refreshed, markSpentOutput, OutputData.Taken, h]
  | some apiOut =>
    refine ⟨rfl, rfl, rfl, rfl, ?_⟩
    rintro (h | h) <;> simp [refreshed, refreshOutput, OutputData.Taken, h]

/-- The same answer a second time changes nothing. -/
theorem refreshed_refreshed (answer : Option ApiOutput) (o : OutputData) :
    refreshed answer (refreshed answer o) = refreshed answer o := by
  cases answer with
  | none =>
    simp only [refreshed, markSpentOutput]
    cases o.status <;> rfl
  | some a =>
    simp only [refreshed, refreshOutput]
    cases o.status <;> rfl

/-- A step updates the one record whose key id goes with the commitment. -/
theorem lookup_applyStep {s : Snapshot} {answers : Dictionary String ApiOutput}
    {d d' : WalletData} {commit : Commitment} (h : applyStep s answers d commit = .ok d') :
    ∃ id, s.walletOutputs.lookup commit.hex = some id ∧ ∀ k, d'.outputs.lookup k
      = (d.outputs.lookup k).map fun o =>
          if k = id.hexValue then refreshed (answers.lookup commit.hex) o else o := by
  unfold applyStep at h
  split at h
  · cases h
  · next id hid =>
    cases h
    refine ⟨id, hid, fun k => ?_⟩
    rw [Dictionary.lookup_modify]
    split
    · rfl
    · exact Option.map_id'.symm

theorem evolves_apply {s : Snapshot} {answers : Dictionary String ApiOutput} {d d' : WalletData}
    (h : apply s answers d = .ok d') : d.Evolves d' := by
  refine foldlM_preserves (P := fun b => d.Evolves b) (fun b commit b' _ hb hstep => ?_) h
    (evolves_refl d)
  obtain ⟨id, -, hlookup⟩ := lookup_applyStep hstep
  refine evolves_trans hb (evolves_of_lookup hlookup fun k o => ?_)
  split
  · exact evolves_refreshed _ o
  · exact .refl o

theorem applied_eq_ok {s : Snapshot} {answers : Dictionary String ApiOutput} {d d' : WalletData}
    {u : Unit} : applied s answers d = .ok (u, d') ↔ apply s answers d = .ok d' := by
  unfold applied
  rw [bind_eq_ok]
  simp

theorem keeps_applied {s : Snapshot} {answers : Dictionary String ApiOutput} {d d' : WalletData}
    {u : Unit} (h : applied s answers d = .ok (u, d')) :
    d.Keeps d' ∧ (d.WellKeyed → d'.WellKeyed) :=
  have hevolves := evolves_apply (applied_eq_ok.mp h)
  ⟨keeps_of_evolves hevolves, wellKeyed_evolves hevolves⟩

theorem apiOutputs_snoc {outputs : List ApiOutput} {op : ApiOutput}
    {answers : Dictionary String ApiOutput} : apiOutputs (outputs ++ [op]) = .ok answers ↔
      ∃ before, apiOutputs outputs = .ok before ∧
        before.add (toHex op.commit) op = some answers := by
  rw [apiOutputs, foldlM_snoc_eq_ok]
  refine exists_congr fun before => and_congr_right fun _ => ?_
  cases before.add (toHex op.commit) op <;> simp

/-- The map of the answers finds an output by its commitment. -/
theorem lookup_apiOutputs_eq_some {outputs : List ApiOutput}
    {answers : Dictionary String ApiOutput} (h : apiOutputs outputs = .ok answers) {bytes : Bytes}
    {a : ApiOutput} :
    answers.lookup (toHex bytes) = some a ↔ a ∈ outputs ∧ a.commit = bytes := by
  induction outputs using List.reverseRecOn generalizing answers with
  | nil =>
    obtain rfl := Except.ok.inj h
    simp
  | append_singleton outputs op ih =>
    obtain ⟨before, hbefore, hadd⟩ := apiOutputs_snoc.mp h
    rw [Dictionary.lookup_add hadd, List.mem_append, List.mem_singleton]
    by_cases hsame : bytes = op.commit
    · subst hsame
      rw [if_pos rfl]
      constructor
      · intro ha
        obtain rfl := Option.some.inj ha
        exact ⟨.inr rfl, rfl⟩
      · rintro ⟨ha | rfl, hcommit⟩
        · -- an earlier output with the commitment would have been in the way
          have hfound := (ih hbefore).mpr ⟨ha, hcommit⟩
          rw [(Dictionary.add_eq_some_iff.mp hadd).1] at hfound
          cases hfound
        · rfl
    · have hhex : toHex bytes ≠ toHex op.commit := fun he => hsame (toHex_injective he)
      rw [if_neg hhex, ih hbefore]
      constructor
      · rintro ⟨ha, hcommit⟩
        exact ⟨.inl ha, hcommit⟩
      · rintro ⟨ha | rfl, hcommit⟩
        · exact ⟨ha, hcommit⟩
        · exact absurd hcommit.symm hsame

/-- It has an entry for exactly the commitments that were answered. -/
theorem lookup_apiOutputs {outputs : List ApiOutput} {answers : Dictionary String ApiOutput}
    (h : apiOutputs outputs = .ok answers) (bytes : Bytes) :
    answers.lookup (toHex bytes) ≠ none ↔ ∃ a ∈ outputs, a.commit = bytes := by
  rw [Option.ne_none_iff_exists']
  simp only [lookup_apiOutputs_eq_some h]

/-- An answer without repeated commitments makes a map. -/
theorem exists_apiOutputs {outputs : List ApiOutput} (h : (outputs.map (·.commit)).Nodup) :
    ∃ answers, apiOutputs outputs = .ok answers := by
  induction outputs using List.reverseRecOn with
  | nil => exact ⟨Dictionary.empty, rfl⟩
  | append_singleton outputs op ih =>
    rw [List.map_append, List.nodup_append] at h
    obtain ⟨hold, -, hnew⟩ := h
    obtain ⟨before, hbefore⟩ := ih hold
    have hfree : before.lookup (toHex op.commit) = none := by
      rw [Option.eq_none_iff_forall_ne_some]
      intro a ha
      obtain ⟨ha, hcommit⟩ := (lookup_apiOutputs_eq_some hbefore).mp ha
      exact hnew _ (List.mem_map_of_mem ha) _ (List.mem_singleton_self _) hcommit
    obtain ⟨answers, hadd⟩ := Dictionary.exists_add op hfree
    exact ⟨answers, apiOutputs_snoc.mpr ⟨before, hbefore, hadd⟩⟩

/-- A refresh loses no record. -/
theorem keeps_refreshOutputs (script : RefreshScript) (config : WalletConfig) (kc : Keychain env)
    (w : World) : w.file.Keeps ((refreshOutputs script config kc).exec w).2.file := by
  refine keeps_bind (fun w => ?_) (fun s => ?_) w
  · rw [readWallet_snd]
    exact keeps_refl _
  · split
    · exact keeps_pure _
    · exact keeps_pure _
    · exact fun w => keeps_refl _
    · refine keeps_bind (keeps_lift _) fun answers => ?_
      exact keeps_bind (fun _ => keeps_withWallet fun _ _ _ => keeps_applied) fun _ => keeps_pure _

/-- A refresh that answers updated the records in place. -/
theorem evolves_refreshOutputs {script : RefreshScript} {config : WalletConfig} {kc : Keychain env}
    {w w' : World} {b : Bool} (h : (refreshOutputs script config kc).exec w = (.ok b, w')) :
    ∃ data data', w.file.readOrCreate = .ok data ∧ w'.file.readOrCreate = .ok data' ∧
      data.Evolves data' := by
  obtain ⟨s, w₁, hsnapshot, hrest⟩ := WalletM.exec_bind_eq_ok.mp h
  obtain ⟨rfl, -, data, hread, -⟩ := readWallet_eq_ok hsnapshot
  split at hrest
  · obtain ⟨-, rfl⟩ := Prod.mk.inj hrest
    exact ⟨data, data, hread, hread, evolves_refl data⟩
  · obtain ⟨-, rfl⟩ := Prod.mk.inj hrest
    exact ⟨data, data, hread, hread, evolves_refl data⟩
  · cases hrest
  · obtain ⟨answers, w₂, hanswers, happly⟩ := WalletM.exec_bind_eq_ok.mp hrest
    obtain ⟨-, rfl⟩ := Prod.mk.inj hanswers
    obtain ⟨⟨⟩, w₃, hwrite, hdone⟩ := WalletM.exec_bind_eq_ok.mp happly
    obtain ⟨-, rfl⟩ := Prod.mk.inj hdone
    obtain ⟨data₁, data', hread₁, happlied, rfl⟩ := withWallet_eq_ok hwrite
    exact ⟨data₁, data', hread₁, rfl, evolves_apply (applied_eq_ok.mp happlied)⟩

end CheckerLemmas

end GrinDotnet
