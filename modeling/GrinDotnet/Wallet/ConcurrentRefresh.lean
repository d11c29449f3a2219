import GrinDotnet.Lib.Pool
import GrinDotnet.Wallet.Sender

/-!
# Concurrent refreshes

A refresh takes a snapshot, asks the node, and applies the answer to the wallet as it is by then.
Meanwhile other refreshes do the same and blocks arrive.

Results:
1. `alone_idle`: taken one after the other, the steps are `refresh_outputs`.
2. `lookup_apply_of_concerns`: what an answer does to the record of an output.
3. `spent_of_missing`: a stale answer declares the record spent.
4. `never_spent`: when no answer is stale, a live output is never declared spent.
-/

namespace GrinDotnet

open BigEndian Outcome WorldLemmas WalletLemmas CheckerLemmas

variable {env : Env}

/-- A record of which the wallet believes that its output is unspent on the chain. -/
def OutputData.Spendable (o : OutputData) : Prop := o.status = .unspent ∨ o.status = .locked

namespace Checker

/-- The wallet file and the node's unspent outputs. -/
structure Net where
  world : World
  utxo : List ApiOutput

/-- Where a refresh stands. -/
inductive Phase
  | idle
  /-- It has a snapshot. -/
  | asked (s : Snapshot)
  /-- The node answered; the file was this one when it did. -/
  | answered (s : Snapshot) (answers : Dictionary String ApiOutput) (seen : WalletFile)
  | done

/-- The surroundings of a refresh. -/
structure Call where
  config : WalletConfig
  readFault : Option Exn
  /-- Whether the node answers with success. -/
  reachable : Bool
  attempt : Attempt

/-- The node answers with those of the commitments it is asked for that are unspent. -/
def reply (utxo : List ApiOutput) (s : Snapshot) : List ApiOutput :=
  utxo.filter fun a => decide (a.commit ∈ s.commits.map fun c => c.value.1)

namespace Call

/-- What comes back from the node. -/
def answer (call : Call) (utxo : List ApiOutput) (s : Snapshot) : NodeAnswer :=
  if call.reachable then .outputs (reply utxo s) else .unreachable

/-- The next step of a refresh. -/
def move (kc : Keychain env) (call : Call) : Phase → Net → Phase × Net
  | .idle, net =>
    match (readWallet call.readFault (snapshot kc)).exec net.world with
    | (.ok s, w) => (.asked s, { net with world := w })
    | (.error _, w) => (.done, { net with world := w })
  | .asked s, net =>
    if call.reachable then
      match apiOutputs (reply net.utxo s) with
      | .ok answers => (.answered s answers net.world.file, net)
      | .error _ => (.done, net)
    else (.done, net)
  | .answered s answers _, net =>
    match (withWallet call.config call.attempt (applied s answers)).exec net.world with
    | (_, w) => (.done, { net with world := w })
  | .done, net => (.done, net)

/-- A refresh alone: its next step. -/
def alone (kc : Keychain env) (call : Call) (p : Phase × Net) : Phase × Net := call.move kc p.1 p.2

/-- Taken one after the other, the steps of a refresh do what the source does. -/
theorem alone_idle (kc : Keychain env) (call : Call) {net : Net} {s : Snapshot} {w : World}
    (hread : (readWallet call.readFault (snapshot kc)).exec net.world = (.ok s, w)) :
    (call.alone kc)^[3] (.idle, net) = (.done, { net with
      world := ((refreshOutputs ⟨call.readFault, call.answer net.utxo s, call.attempt⟩ call.config
        kc).exec net.world).2 }) := by
  have hfirst : call.alone kc (.idle, net) = (.asked s, { net with world := w }) := by
    simp [alone, move, hread]
  have hrefresh : (refreshOutputs ⟨call.readFault, call.answer net.utxo s, call.attempt⟩ call.config
      kc).exec net.world = _ := WalletM.exec_bind_of_ok hread
  rw [Function.iterate_succ_apply, hfirst, Function.iterate_succ_apply, Function.iterate_one, hrefresh]
  cases hreach : call.reachable with
  | false => simp [alone, move, answer, hreach]
  | true =>
    simp only [alone, move, answer, hreach, if_true]
    rw [WalletM.exec_bind, WalletM.exec_lift]
    rcases apiOutputs (reply net.utxo s) with e | answers
    · rfl
    · simp only
      rw [WalletM.exec_bind]
      rcases (withWallet call.config call.attempt (applied s answers)).exec w with ⟨_ | _, w₂⟩ <;> rfl

end Call

/-! ## Snapshots and answers -/

/-- The output with the commitment is unspent. -/
def Unspent (c : Commitment) (utxo : List ApiOutput) : Prop := ∃ a ∈ utxo, a.commit = c.value.1

/-- In the snapshot, the record under the key goes with this commitment and no other one. -/
def Sound (s : Snapshot) (k : String) (c : Commitment) : Prop :=
  ∀ commit ∈ s.commits, ∃ id, s.walletOutputs.lookup commit.hex = some id ∧
    (id.hexValue = k → commit = c)

theorem sound_snapshot {kc : Keychain env} {data : WalletData} (hfiled : data.Filed) {k : String}
    {o : OutputData} (ho : data.outputs.lookup k = some o) {c : Commitment}
    (hc : kc.commitWithKeyIndex o.value o.nChild = .ok c) {s : Snapshot}
    (h : snapshot kc data = .ok s) : Sound s k c := by
  refine foldlM_preserves (P := fun s => Sound s k c) (fun s op s' hop hs hstep => ?_) h
    fun commit hcommit => absurd hcommit List.not_mem_nil
  obtain ⟨commit, hcommit, hstep⟩ := bind_eq_ok.mp hstep
  obtain ⟨id, hid, hstep⟩ := bind_eq_ok.mp hstep
  split at hstep
  · next walletOutputs hadd =>
    obtain rfl := Except.ok.inj hstep
    obtain ⟨k', hk'⟩ := Dictionary.mem_values_iff.mp (List.mem_filter.mp hop).1
    obtain ⟨hkey, id', hid', hhex⟩ := hfiled k' op hk'
    obtain rfl : id' = id := by
      rw [hkey, hid'] at hid
      exact Except.ok.inj hid
    have hnew : id'.hexValue = k → commit = c := by
      rintro rfl
      rw [hhex] at ho
      obtain rfl := Option.some.inj (hk'.symm.trans ho)
      exact Except.ok.inj (hcommit.symm.trans hc)
    intro commit' hmem
    rcases List.mem_append.mp hmem with hold | hlast
    -- the new entry has another commitment, so the old ones stay
    · obtain ⟨id₁, hid₁, hsound⟩ := hs commit' hold
      have hne : commit'.hex ≠ commit.hex := by
        intro he
        have hnone := (Dictionary.add_eq_some_iff.mp hadd).1
        rw [← he, hid₁] at hnone
        cases hnone
      exact ⟨id₁, by rw [Dictionary.lookup_add hadd, if_neg hne, hid₁], hsound⟩
    · obtain rfl := List.mem_singleton.mp hlast
      exact ⟨id', by rw [Dictionary.lookup_add hadd, if_pos rfl], hnew⟩
  · cases hstep

/-- The node's answer has an entry for a commitment it was asked for exactly when that is
unspent. -/
theorem lookup_reply {utxo : List ApiOutput} {s : Snapshot} {answers : Dictionary String ApiOutput}
    (h : apiOutputs (reply utxo s) = .ok answers) {c : Commitment} (hc : c ∈ s.commits) :
    answers.lookup c.hex ≠ none ↔ Unspent c utxo := by
  have hhex : c.hex = toHex c.value.1 := rfl
  rw [hhex, lookup_apiOutputs h]
  constructor
  · rintro ⟨a, ha, heq⟩
    exact ⟨a, (List.mem_filter.mp ha).1, heq⟩
  · rintro ⟨a, ha, heq⟩
    refine ⟨a, List.mem_filter.mpr ⟨ha, ?_⟩, heq⟩
    simpa using ⟨c, hc, heq.symm⟩

/-! ## The record of an output -/

/-- The record under a key stands for an output of this value and index, is not marked spent, and is
believed to be on the chain only if it is. -/
def Alive (k : String) (value : UInt64) (nChild : UInt32) (c : Commitment) (utxo : List ApiOutput)
    (data : WalletData) : Prop :=
  ∃ o, data.outputs.lookup k = some o ∧ o.value = value ∧ o.nChild = nChild ∧
    o.status ≠ .spent ∧ (o.Spendable → Unspent c utxo)

/-- Whether a file lists a record under the key that the wallet believes to be on the chain. -/
def spendable (file : WalletFile) (k : String) : Bool :=
  match file.record? k with
  | some o => decide (o.status = .unspent ∨ o.status = .locked)
  | none => false

theorem spendable_iff {file : WalletFile} {k : String} {data : WalletData} {o : OutputData}
    (hread : file.readOrCreate = .ok data) (ho : data.outputs.lookup k = some o) :
    spendable file k = true ↔ o.Spendable := by
  simp [spendable, record?_of_read hread, ho, OutputData.Spendable]

section Apply

variable {k : String} {c : Commitment} {s : Snapshot} {answers : Dictionary String ApiOutput}
  {data data' : WalletData}

/-- The refresh updates the record under the key by what it was answered for the commitment. -/
def Concerns (s : Snapshot) (k : String) (c : Commitment) : Prop :=
  c ∈ s.commits ∧ ∃ id, s.walletOutputs.lookup c.hex = some id ∧ id.hexValue = k

/-- A record that no commitment goes with is not touched. -/
theorem lookup_apply_of_other (h : apply s answers data = .ok data')
    (hother : ∀ commit ∈ s.commits, ∀ id, s.walletOutputs.lookup commit.hex = some id →
      id.hexValue ≠ k) : data'.outputs.lookup k = data.outputs.lookup k := by
  refine foldlM_preserves (P := fun d => d.outputs.lookup k = data.outputs.lookup k)
    (fun d commit d' hcommit hd hstep => ?_) h rfl
  obtain ⟨id, hid, hlookup⟩ := lookup_applyStep hstep
  have hne : ¬ k = id.hexValue := fun hk => hother commit hcommit id hid hk.symm
  simp only [hlookup, hne, if_false, Option.map_id']
  exact hd

/-- A step leaves the record alone or makes it take the answer for its commitment. -/
theorem lookup_applyStep_of_sound (hsound : Sound s k c) {commit : Commitment}
    (hcommit : commit ∈ s.commits) {d d' : WalletData}
    (h : applyStep s answers d commit = .ok d') :
    d'.outputs.lookup k = d.outputs.lookup k ∨
      d'.outputs.lookup k = (d.outputs.lookup k).map (refreshed (answers.lookup c.hex)) := by
  obtain ⟨id, hid, hlookup⟩ := lookup_applyStep h
  obtain ⟨id', hid', hsame⟩ := hsound commit hcommit
  obtain rfl := Option.some.inj (hid.symm.trans hid')
  by_cases hk : k = id.hexValue
  · obtain rfl := hsame hk.symm
    refine .inr ?_
    simp only [hlookup, hk, if_true]
  · refine .inl ?_
    simp only [hlookup, hk, if_false, Option.map_id']

/-- A record with a commitment of its own takes the answer for it. -/
theorem lookup_apply_of_concerns (h : apply s answers data = .ok data') (hsound : Sound s k c)
    (hconcerns : Concerns s k c) : data'.outputs.lookup k =
      (data.outputs.lookup k).map (refreshed (answers.lookup c.hex)) := by
  let taken := (data.outputs.lookup k).map (refreshed (answers.lookup c.hex))
  have htwice : taken.map (refreshed (answers.lookup c.hex)) = taken := by
    simp only [taken, Option.map_map]
    congr 1
    funext o
    exact refreshed_refreshed _ o
  obtain ⟨hc, id, hid, hkey⟩ := hconcerns
  -- before its commitment comes it may have taken the answer, then it has
  obtain ⟨before, after, hsplit⟩ := List.append_of_mem hc
  have happly := h
  rw [apply, hsplit] at happly
  obtain ⟨d₁, hbefore, hrest⟩ := foldlM_append_eq_ok.mp happly
  obtain ⟨d₂, hmiddle, hafter⟩ := foldlM_cons_eq_ok.mp hrest
  have hfirst : d₁.outputs.lookup k = data.outputs.lookup k ∨ d₁.outputs.lookup k = taken := by
    refine foldlM_preserves (P := fun d : WalletData =>
      d.outputs.lookup k = data.outputs.lookup k ∨ d.outputs.lookup k = taken)
      (fun d commit d' hcommit hd hstep => ?_) hbefore (.inl rfl)
    have hmem : commit ∈ s.commits := by simp [hsplit, hcommit]
    rcases lookup_applyStep_of_sound hsound hmem hstep with hsame | htaken
    · rwa [hsame]
    · rcases hd with hd | hd
      · exact .inr (by rw [htaken, hd])
      · exact .inr (by rw [htaken, hd, htwice])
  have hsecond : d₂.outputs.lookup k = taken := by
    obtain ⟨id', hid', hlookup⟩ := lookup_applyStep hmiddle
    obtain rfl := Option.some.inj (hid.symm.trans hid')
    simp only [hlookup, hkey, if_true]
    rcases hfirst with hd | hd
    · rw [hd]
    · rw [hd, htwice]
  refine foldlM_preserves (P := fun d : WalletData => d.outputs.lookup k = taken)
    (fun d commit d' hcommit hd hstep => ?_) hafter hsecond
  have hmem : commit ∈ s.commits := by simp [hsplit, hcommit]
  rcases lookup_applyStep_of_sound hsound hmem hstep with hsame | htaken
  · rw [hsame, hd]
  · rw [htaken, hd, htwice]

/-- An answer that has the commitment, or that finds the record not spendable, keeps it alive. -/
theorem alive_apply {value : UInt64} {nChild : UInt32} {utxo : List ApiOutput}
    (h : apply s answers data = .ok data') (hsound : Sound s k c)
    (hanswered : c ∈ s.commits → answers.lookup c.hex ≠ none → Unspent c utxo)
    (hmissing : Concerns s k c → answers.lookup c.hex = none →
      ∀ o, data.outputs.lookup k = some o → ¬ o.Spendable)
    (halive : Alive k value nChild c utxo data) : Alive k value nChild c utxo data' := by
  obtain ⟨o, ho, hvalue, hchild, hspent, hchain⟩ := halive
  by_cases hconcerns : Concerns s k c
  · have htaken := lookup_apply_of_concerns h hsound hconcerns
    rw [ho, Option.map_some] at htaken
    refine ⟨_, htaken, ?_⟩
    cases hanswer : answers.lookup c.hex with
    | none =>
      have hnot := hmissing hconcerns hanswer o ho
      have hstays : refreshed none o = o := by
        unfold refreshed markSpentOutput
        cases hstatus : o.status with
        | unspent => exact absurd (.inl hstatus) hnot
        | locked => exact absurd (.inr hstatus) hnot
        | unconfirmed | spent => simp [← hstatus]
      rw [hstays]
      exact ⟨hvalue, hchild, hspent, hchain⟩
    | some a =>
      have hunspent : Unspent c utxo := hanswered hconcerns.1 (by simp [hanswer])
      refine ⟨hvalue, hchild, ?_, fun _ => hunspent⟩
      show (refreshOutput o a).status ≠ .spent
      unfold refreshOutput
      cases hstatus : o.status with
      | spent => exact absurd hstatus hspent
      | unconfirmed | unspent | locked => simp
  · have hsame : data'.outputs.lookup k = data.outputs.lookup k :=
      lookup_apply_of_other h fun commit hcommit id hid hk => by
        obtain ⟨id', hid', hone⟩ := hsound commit hcommit
        obtain rfl := Option.some.inj (hid.symm.trans hid')
        obtain rfl := hone hk
        exact hconcerns ⟨hcommit, id, hid, hk⟩
    exact ⟨o, hsame.trans ho, hvalue, hchild, hspent, hchain⟩

/-- An answer that lacks the commitment of a spendable record declares it spent. -/
theorem spent_of_missing (h : apply s answers data = .ok data') (hsound : Sound s k c)
    (hconcerns : Concerns s k c) (hnone : answers.lookup c.hex = none) {o : OutputData}
    (ho : data.outputs.lookup k = some o) (hspendable : o.Spendable) :
    ∃ o', data'.outputs.lookup k = some o' ∧ o'.status = .spent := by
  have htaken := lookup_apply_of_concerns h hsound hconcerns
  rw [ho, hnone, Option.map_some] at htaken
  refine ⟨_, htaken, ?_⟩
  rcases hspendable with hstatus | hstatus <;> simp [refreshed, markSpentOutput, hstatus]

end Apply

/-! ## Runs -/

/-- Whether a refresh is about to apply an answer that lacks the commitment, although its record has
become spendable since the node was asked. -/
def stale (c : Commitment) (phase : Phase) (file : WalletFile) : Bool :=
  match phase with
  | .answered s answers seen =>
    decide (c ∈ s.commits) && (answers.lookup c.hex).isNone &&
      match s.walletOutputs.lookup c.hex with
      | some id => spendable file id.hexValue && !spendable seen id.hexValue
      | none => false
  | _ => false

/-- What a refresh knows is sound: an answer with the commitment came from a chain that has it, and
one without it came when the record was not spendable. -/
def Phase.Knows (k : String) (c : Commitment) (utxo : List ApiOutput) : Phase → Prop
  | .asked s => Sound s k c
  | .answered s answers seen =>
    Sound s k c ∧ (c ∈ s.commits →
      (answers.lookup c.hex ≠ none → Unspent c utxo) ∧
        (answers.lookup c.hex = none → spendable seen k = false))
  | _ => True

/-- What a file may hold while the output lives. -/
def Live (k : String) (value : UInt64) (nChild : UInt32) (c : Commitment) (net : Net) : Prop :=
  net.world.file.Satisfies fun data => data.Filed ∧ Alive k value nChild c net.utxo data

section Step

variable {kc : Keychain env} {k : String} {value : UInt64} {nChild : UInt32} {c : Commitment}
  {net : Net}

/-- The record is spendable only while the chain has the output. -/
theorem unspent_of_spendable (hlive : Live k value nChild c net)
    (h : spendable net.world.file k = true) : Unspent c net.utxo := by
  cases hread : net.world.file.readOrCreate with
  | error e => simp [spendable, WalletFile.record?, WalletFile.outputs?, hread] at h
  | ok data =>
    obtain ⟨-, o, ho, -, -, -, hchain⟩ := hlive data hread
    exact hchain ((spendable_iff hread ho).mp h)

/-- Applying an answer that is not stale keeps the output alive. -/
theorem live_applied {config : WalletConfig} {attempt : Attempt} {s : Snapshot}
    {answers : Dictionary String ApiOutput} {seen : WalletFile} (hlive : Live k value nChild c net)
    (hknows : (Phase.answered s answers seen).Knows k c net.utxo)
    (hfresh : stale c (.answered s answers seen) net.world.file = false) :
    Live k value nChild c { net with
      world := ((withWallet config attempt (applied s answers)).exec net.world).2 } := by
  refine satisfies_withWallet (fun data _ data' hread hdata hstep => ?_) hlive
  obtain ⟨hfiled, halive⟩ := hdata
  have happly : apply s answers data = .ok data' := applied_eq_ok.mp hstep
  refine ⟨filed_evolves (evolves_apply happly) hfiled, ?_⟩
  refine alive_apply happly hknows.1 (fun hc => (hknows.2 hc).1) ?_ halive
  rintro ⟨hc, id, hid, rfl⟩ hnone o ho hspendable
  have hnow : spendable net.world.file id.hexValue = true := (spendable_iff hread ho).mpr hspendable
  simp [stale, hc, hnone, hid, hnow, (hknows.2 hc).2 hnone] at hfresh

/-- One step of a refresh that is not stale. -/
theorem live_move (call : Call) (hc : kc.commitWithKeyIndex value nChild = .ok c) {phase : Phase}
    (hlive : Live k value nChild c net) (hknows : phase.Knows k c net.utxo)
    (hfresh : stale c phase net.world.file = false) :
    (call.move kc phase net).2.utxo = net.utxo ∧ Live k value nChild c (call.move kc phase net).2 ∧
      (call.move kc phase net).1.Knows k c net.utxo := by
  cases phase with
  | done => exact ⟨rfl, hlive, trivial⟩
  | idle =>
    simp only [Call.move]
    have hworld := readWallet_snd call.readFault (snapshot kc) net.world
    rcases hread : (readWallet call.readFault (snapshot kc)).exec net.world with ⟨e | s, w⟩ <;>
      rw [hread] at hworld <;> obtain rfl := hworld
    · exact ⟨rfl, hlive, trivial⟩
    · obtain ⟨-, -, data, hdata, hsnapshot⟩ := readWallet_eq_ok hread
      obtain ⟨hfiled, o, ho, rfl, rfl, -⟩ := hlive data hdata
      exact ⟨rfl, hlive, sound_snapshot hfiled ho hc hsnapshot⟩
  | asked s =>
    simp only [Call.move]
    split
    · split
      · next answers hanswers =>
        refine ⟨rfl, hlive, hknows, fun hmem => ⟨(lookup_reply hanswers hmem).mp, fun hnone => ?_⟩⟩
        by_contra hseen
        have hunspent := unspent_of_spendable hlive (by simpa using hseen)
        exact (lookup_reply hanswers hmem).mpr hunspent hnone
      · exact ⟨rfl, hlive, trivial⟩
    · exact ⟨rfl, hlive, trivial⟩
  | answered s answers seen => exact ⟨rfl, live_applied hlive hknows hfresh, trivial⟩

end Step

section Runs

variable {ι : Type*} [DecidableEq ι] {kc : Keychain env} {k : String} {value : UInt64}
  {nChild : UInt32} {c : Commitment}

/-- A refresh does not set out to apply a stale answer, also where it then fails. -/
def Fresh (c : Commitment) (i : ι) (p : Pool ι Net Phase) : Prop :=
  stale c (p.locals i) p.shared.world.file = false

instance decidableFresh (c : Commitment) (i : ι) (p : Pool ι Net Phase) : Decidable (Fresh c i p) :=
  inferInstanceAs (Decidable (_ = false))

/-- Blocks arrive. Whatever else they create or spend, this output stays unspent once it is. -/
def Blocks (c : Commitment) (net net' : Net) : Prop :=
  net'.world = net.world ∧ (Unspent c net.utxo → Unspent c net'.utxo)

/-- The output is alive in the file, and every refresh knows no better. -/
structure Inv (k : String) (value : UInt64) (nChild : UInt32) (c : Commitment)
    (p : Pool ι Net Phase) : Prop where
  live : Live k value nChild c p.shared
  knows : ∀ i, (p.locals i).Knows k c p.shared.utxo

/-- What a refresh knows stays true while the output stays unspent. -/
theorem Phase.knows_of_unspent {utxo utxo' : List ApiOutput}
    (h : Unspent c utxo → Unspent c utxo') {phase : Phase} (hknows : phase.Knows k c utxo) :
    phase.Knows k c utxo' := by
  cases phase with
  | idle | done => exact trivial
  | asked s => exact hknows
  | answered s answers seen =>
    obtain ⟨hsound, hanswers⟩ := hknows
    exact ⟨hsound, fun hmem => ⟨fun hsome => h ((hanswers hmem).1 hsome), (hanswers hmem).2⟩⟩

theorem live_blocks {net net' : Net} (hlive : Live k value nChild c net) (h : Blocks c net net') :
    Live k value nChild c net' := by
  obtain ⟨hworld, hunspent⟩ := h
  intro data hread
  rw [hworld] at hread
  obtain ⟨hfiled, o, ho, hvalue, hchild, hspent, hchain⟩ := hlive data hread
  exact ⟨hfiled, o, ho, hvalue, hchild, hspent, fun h => hunspent (hchain h)⟩

/-- Refreshes that never apply a stale answer rely on nothing but that the output stays unspent, and
that is what refreshes and blocks guarantee. -/
theorem inv_of_run {calls : ι → Call} (hc : kc.commitWithKeyIndex value nChild = .ok c)
    {p q : Pool ι Net Phase} {history : List (Option ι)}
    (hrun : Run (Pool.Step (Pool.Moves (fun i => (calls i).move kc) (Fresh c)) (Blocks c))
      p history q) (hinv : Inv k value nChild c p) : Inv k value nChild c q := by
  have hends := Pool.rely_guarantee (I := Live k value nChild c)
    (L := fun _ net phase => phase.Knows k c net.utxo)
    (G := fun net net' => Unspent c net.utxo → Unspent c net'.utxo)
    (fun i p phase net hlive hknows hown => ?_)
    (fun net net' hlive hblocks => ⟨live_blocks hlive hblocks, hblocks.2⟩)
    (fun _ _ _ _ hunspent hknows => Phase.knows_of_unspent hunspent hknows)
    hrun hinv.live hinv.knows
  · exact ⟨hends.1, hends.2⟩
  · obtain ⟨hfresh, hmove⟩ := hown
    have hstep := live_move (calls i) hc hlive hknows hfresh
    rw [show (calls i).move kc (p.locals i) p.shared = (phase, net) from hmove] at hstep
    obtain ⟨hutxo, hlive', hknows'⟩ := hstep
    rw [show net.utxo = p.shared.utxo from hutxo]
    exact ⟨hlive', hknows', id⟩

/-- In every run of refreshes that never apply a stale answer, an output that is not spent on the
chain is never declared spent. -/
theorem never_spent {calls : ι → Call} {p q : Pool ι Net Phase} {history : List (Option ι)}
    {o : OutputData} (hstart : ∀ i, p.locals i = .idle)
    (hfiled : p.shared.world.file.Satisfies WalletData.Filed)
    (hrecord : p.shared.world.file.Satisfies fun data => data.outputs.lookup k = some o)
    (hc : kc.commitWithKeyIndex o.value o.nChild = .ok c) (hspent : o.status ≠ .spent)
    (hchain : o.Spendable → Unspent c p.shared.utxo)
    (hrun : Run (Pool.Step (Pool.Moves (fun i => (calls i).move kc) (Fresh c)) (Blocks c))
      p history q) :
    q.shared.world.file.Satisfies fun data =>
      ∃ o', data.outputs.lookup k = some o' ∧ o'.status ≠ .spent := by
  have hfirst : Inv k o.value o.nChild c p :=
    { live := fun data hread =>
        ⟨hfiled data hread, o, hrecord data hread, rfl, rfl, hspent, hchain⟩
      knows := fun i => by rw [hstart i]; exact trivial }
  intro data hread
  obtain ⟨-, o', ho', -, -, hspent', -⟩ := (inv_of_run hc hrun hfirst).live data hread
  exact ⟨o', ho', hspent'⟩

end Runs

/-! ### Over pairs -/

/-- A coin that is not confirmed yet. -/
def pairUnconfirmed : OutputData := { pairCoin 1 10000000 with status := .unconfirmed }

/-- The wallet of that coin. -/
def pairUnconfirmedWallet : WalletData := ⟨⟨[(pairUnconfirmed.keyId, pairUnconfirmed)], by simp⟩⟩

/-- The coin's commitment. -/
def pairCommit : Commitment := ⟨Pairs.save 10000000 7⟩

/-- The coin on the chain. -/
def pairOutput : ApiOutput := ⟨pairCommit.value.1, 3, 0⟩

/-- A refresh in which nothing goes wrong. -/
def pairRefresh : Call := ⟨⟨""⟩, none, true, Attempt.calm⟩

/-- Two refreshes that have not begun, and a chain without the coin. -/
def pairRefreshes : Pool Bool Net Phase :=
  ⟨⟨⟨.stored pairUnconfirmedWallet, false, [], []⟩, []⟩, fun _ => .idle⟩

/-- The pool after these refreshes took a step each, in this order. -/
def pairSteps (p : Pool Bool Net Phase) (is : List Bool) : Pool Bool Net Phase :=
  Pool.schedule (fun _ => pairRefresh.move pairSender) p is

/-- A block with the coin arrives. -/
def pairBlock (p : Pool Bool Net Phase) : Pool Bool Net Phase :=
  { p with shared := { p.shared with utxo := [pairOutput] } }

theorem blocks_pairBlock (p : Pool Bool Net Phase) :
    Blocks pairCommit p.shared (pairBlock p).shared :=
  ⟨rfl, fun _ => ⟨pairOutput, List.mem_singleton_self _, rfl⟩⟩

theorem filed_pairUnconfirmedWallet : pairUnconfirmedWallet.Filed := by
  intro k o ho
  have hmem := Dictionary.mem_entries_iff.mpr ho
  simp only [pairUnconfirmedWallet, List.mem_singleton, Prod.mk.injEq] at hmem
  obtain ⟨rfl, rfl⟩ := hmem
  exact ⟨rfl, ⟨ofNat 10 7⟩, Identifier.fromHex_hexValue (by decide), rfl⟩

/-- The first refresh asks before the block and applies its answer before the second one begins. -/
theorem never_spent_pairs :
    (pairSteps (pairBlock (pairSteps pairRefreshes [false, false, false]))
      [true, true, true]).shared.world.file.Satisfies fun data =>
        ∃ o', data.outputs.lookup pairUnconfirmed.keyId = some o' ∧ o'.status ≠ .spent := by
  have hbefore : Pool.Allowed (fun _ : Bool => pairRefresh.move pairSender) (Fresh pairCommit)
      pairRefreshes [false, false, false] := by decide +kernel
  have hafter : Pool.Allowed (fun _ : Bool => pairRefresh.move pairSender) (Fresh pairCommit)
      (pairBlock (pairSteps pairRefreshes [false, false, false])) [true, true, true] := by
    decide +kernel
  have hcommit : pairSender.commitWithKeyIndex pairUnconfirmed.value pairUnconfirmed.nChild
      = .ok pairCommit := by decide +kernel
  exact never_spent (fun _ => rfl) (satisfies_stored.mpr filed_pairUnconfirmedWallet)
    (satisfies_stored.mpr (by decide +kernel)) hcommit (by decide)
    (by simp [OutputData.Spendable, pairUnconfirmed])
    (((Pool.run_schedule hbefore).trans (Run.single (.outer (blocks_pairBlock _)))).trans
      (Pool.run_schedule hafter))

/-- The answer to the first refresh is applied after the block and a whole second refresh. -/
theorem spent_while_live :
    ∃ q : Pool Bool Net Phase, ∃ history,
      Run (Pool.Step (Pool.Moves (fun _ => pairRefresh.move pairSender) fun _ _ => True)
        (Blocks pairCommit)) pairRefreshes history q ∧
      pairRefreshes.shared.world.file.Satisfies WalletData.Filed ∧
      pairSender.commitWithKeyIndex 10000000 1 = .ok pairCommit ∧
      Unspent pairCommit q.shared.utxo ∧
      q.shared.world.file.Lists pairUnconfirmed.keyId fun o =>
        o.value = 10000000 ∧ o.nChild = 1 ∧ o.status = .spent := by
  have hbefore : Pool.Allowed (fun _ : Bool => pairRefresh.move pairSender) (fun _ _ => True)
      pairRefreshes [false, false] := by simp [Pool.Allowed]
  have hafter : Pool.Allowed (fun _ : Bool => pairRefresh.move pairSender) (fun _ _ => True)
      (pairBlock (pairSteps pairRefreshes [false, false])) [true, true, true, false] := by
    simp [Pool.Allowed]
  refine ⟨pairSteps (pairBlock (pairSteps pairRefreshes [false, false])) [true, true, true, false],
    _, ((Pool.run_schedule hbefore).trans (Run.single (.outer (blocks_pairBlock _)))).trans
      (Pool.run_schedule hafter), satisfies_stored.mpr filed_pairUnconfirmedWallet, ?_,
    ⟨pairOutput, ?_, rfl⟩, ?_⟩
  · decide +kernel
  · decide +kernel
  · exact ⟨⟨⟨[(pairUnconfirmed.keyId, { pairUnconfirmed with status := .spent })], by simp⟩⟩,
      by decide +kernel, _, rfl, by decide +kernel⟩

end Checker

end GrinDotnet
