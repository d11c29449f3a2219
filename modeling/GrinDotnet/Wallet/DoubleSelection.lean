import GrinDotnet.Wallet.SendSteps

/-!
# Concurrent sends

Several sends work on one wallet file, each taking its steps when it likes. Meanwhile refreshes
apply and outputs are received. The selection reads without the lock and the coins are locked only
after the delivery, so two sends that overlap may spend the same coin.

Results:
1. `transition_move`: everything one step of a send can do to its phase and to the file.
2. `inv_of_run`: the invariant of sends that select one at a time.
3. `delivered_disjoint`: such sends never spend a coin twice.
4. `delivered_twice`: two sends that overlap do.
-/

namespace GrinDotnet

open Outcome WorldLemmas WalletLemmas SelectLemmas

variable {env : Env}

namespace Sender

/-! ## Steps -/

/-- The records under a key have a property, whenever the file can be read. -/
def Recorded (file : WalletFile) (k : String) (Q : OutputData → Prop) : Prop :=
  file.Satisfies fun data => ∃ r, data.outputs.lookup k = some r ∧ Q r

/-- What one step of a send does to its phase and to the wallet file. -/
inductive Transition (file : WalletFile) : Phase → Phase → WalletFile → Prop
  | selected {coins : List OutputData} {data : WalletData} :
      file.readOrCreate = .ok data →
      (∀ c ∈ coins, (∃ k, data.outputs.lookup k = some c) ∧ ¬ c.Taken) →
      Transition file .ready (.selected coins) file
  | built {coins : List OutputData} {changeKey : Identifier} {partialTx : PartialTx}
      {data data' : WalletData} {o : OutputData} :
      file.readOrCreate = .ok data → o.keyId = changeKey.hexValue → data.addOutput o = .ok data' →
      Transition file (.selected coins) (.built coins changeKey partialTx) (.stored data')
  | gaveUp {l : Phase} {file' : WalletFile} {result : Except Exn Unit} :
      (∀ coins changeKey sent, l ≠ .failing coins changeKey sent) → file.Keeps file' →
      Transition file l (.ended [] false result) file'
  | delivered {coins : List OutputData} {changeKey : Identifier} {partialTx : PartialTx} :
      Transition file (.built coins changeKey partialTx) (.delivered coins changeKey) file
  | undelivered {coins : List OutputData} {changeKey : Identifier} {partialTx : PartialTx} :
      Transition file (.built coins changeKey partialTx) (.failing coins changeKey false) file
  | lockedFirst {coins : List OutputData} {changeKey : Identifier} {partialTx : PartialTx}
      {data data' : WalletData} :
      file.readOrCreate = .ok data → data.lockCoins coins = .ok data' →
      Transition file (.built coins changeKey partialTx) (.locked coins partialTx) (.stored data')
  | lockedLast {coins : List OutputData} {changeKey : Identifier} {data data' : WalletData} :
      file.readOrCreate = .ok data → data.lockCoins coins = .ok data' →
      Transition file (.delivered coins changeKey) (.done coins) (.stored data')
  | notLocked {coins : List OutputData} {changeKey : Identifier} {file' : WalletFile} :
      file.Keeps file' →
      Transition file (.delivered coins changeKey) (.failing coins changeKey true) file'
  | rolledBack {coins : List OutputData} {changeKey : Identifier} {sent : Bool}
      {result : Except Exn Unit} {file' : WalletFile} :
      (∀ data', file'.readOrCreate = .ok data' → ∃ data, file.readOrCreate = .ok data ∧
        (data' = data ∨ data' = data.deleteOutput changeKey)) →
      Transition file (.failing coins changeKey sent) (.ended coins sent result) file'
  | printed {coins : List OutputData} {partialTx : PartialTx} :
      Transition file (.locked coins partialTx) (.done coins) file
  | stayed {l : Phase} : Transition file l l file

namespace Phase

theorem spent_subset_claimed (l : Phase) : l.spent ⊆ l.claimed := by
  cases l with
  | failing coins changeKey sent => cases sent <;> exact List.Subset.refl _
  | ended coins sent result => cases sent <;> exact List.Subset.refl _
  | ready | selected | built | locked => exact List.nil_subset _
  | delivered | done => exact List.Subset.refl _

theorem secured_of_claimed {l : Phase} (hbusy : l.busy = false) : l.claimed = l.secured := by
  cases l with
  | ready | locked | done => rfl
  | selected | built | delivered | failing => cases hbusy
  | ended coins sent result =>
    obtain rfl : sent = false := hbusy
    rfl

theorem busy_of_pending {l : Phase} {c : OutputData} (hc : c ∈ l.pending) : l.busy = true := by
  cases l with
  | selected | built | delivered => rfl
  | ready | failing | locked | done | ended => cases hc

theorem busy_of_changeKey {l : Phase} {key : Identifier} (h : l.changeKey = some key) :
    l.busy = true := by
  cases l with
  | built | delivered | failing => rfl
  | ready | selected | locked | done | ended => cases h

end Phase

namespace Call

variable (call : Call env)

theorem transition_select (w : World) :
    Transition w.file .ready (call.select w).1 (call.select w).2.file := by
  rw [call.select_snd]
  unfold select
  rcases hread : (readWallet call.script.selectFault
    (selectCoins call.kc call.args call.height)).exec w with ⟨e | coins, w'⟩
  · exact .gaveUp (by simp) (keeps_refl _)
  · obtain ⟨-, -, data, hdata, hselect⟩ := readWallet_eq_ok hread
    refine .selected hdata fun c hc => ?_
    obtain ⟨hlookup, hspent, hlocked⟩ := recorded_of_select hselect hc
    exact ⟨hlookup, fun ht => ht.elim hlocked hspent⟩

theorem transition_build (coins : List OutputData) (w : World) :
    Transition w.file (.selected coins) (call.build coins w).1 (call.build coins w).2.file := by
  have hkeeps := SenderLemmas.keeps_inputsAndChange call.config call.kc call.script.addChange coins
    call.args.amount w
  unfold build
  rcases hparts : (inputsAndChange call.config call.kc call.script.addChange coins
    call.args.amount).exec w with ⟨e | ⟨parts, changeKey⟩, w'⟩ <;> rw [hparts] at hkeeps
  · exact .gaveUp (by simp) hkeeps
  · simp only
    rcases Build.transaction (parts ++ [Build.withLockHeight call.height]) call.kc
      with e | ⟨tx, blind⟩
    · exact .gaveUp (by simp) hkeeps
    · obtain ⟨change, inputs, data, data', -, hread, hadd, -, rfl⟩ :=
        SenderLemmas.inputsAndChange_eq_ok hparts
      exact .built hread rfl (SenderLemmas.addChange_eq_ok.mp hadd).2

theorem transition_deliver (coins : List OutputData) (changeKey : Identifier)
    (partialTx : PartialTx) (w : World) :
    Transition w.file (.built coins changeKey partialTx)
      (call.deliver coins changeKey partialTx w).1
      (call.deliver coins changeKey partialTx w).2.file := by
  unfold deliver
  split
  · have hkeeps := SenderLemmas.keeps_updateWallet call.config call.script.lock coins w
    rcases hlock : (updateWallet call.config call.script.lock coins).exec w with ⟨e | u, w'⟩ <;>
      rw [hlock] at hkeeps
    · exact .gaveUp (by simp) hkeeps
    · obtain ⟨data, data', hread, hcoins, rfl⟩ := SenderLemmas.updateWallet_eq_ok hlock
      exact .lockedFirst hread hcoins
  · split
    · unfold sendPartialTx
      cases call.script.delivery with
      | none => exact .delivered
      | some e => exact .undelivered
    · exact .gaveUp (by simp) (keeps_refl _)

/-- Every step of a send is one of the transitions. -/
theorem transition_move (l : Phase) (w : World) :
    Transition w.file l (call.move l w).1 (call.move l w).2.file := by
  cases l with
  | ready => exact call.transition_select w
  | selected coins => exact call.transition_build coins w
  | built coins changeKey partialTx => exact call.transition_deliver coins changeKey partialTx w
  | delivered coins changeKey =>
    have hkeeps := SenderLemmas.keeps_updateWallet call.config call.script.lock coins w
    simp only [move]
    rcases hlock : (updateWallet call.config call.script.lock coins).exec w with ⟨e | u, w'⟩ <;>
      rw [hlock] at hkeeps
    · exact .notLocked hkeeps
    · obtain ⟨data, data', hread, hcoins, rfl⟩ := SenderLemmas.updateWallet_eq_ok hlock
      exact .lockedLast hread hcoins
  | failing coins changeKey sent =>
    refine .rolledBack ?_
    have hcalled := called_withWallet call.config call.script.rollback
      (fun data => .ok ((), data.deleteOutput changeKey)) w
    simp only [move, rollbackWallet]
    generalize (withWallet call.config call.script.rollback
      fun data => .ok ((), data.deleteOutput changeKey)).exec w = r at hcalled
    cases hcalled with
    | refused | raised => exact fun data hdata => ⟨data, hdata, .inl rfl⟩
    | tore =>
      intro data' hdata'
      cases hdata'
    | @undisposed e data r _ _ hread hf | @done data r _ _ hread hf =>
      intro data' hdata'
      obtain rfl := Except.ok.inj hdata'
      obtain rfl := Except.ok.inj hf
      exact ⟨data, hread, .inr rfl⟩
  | locked coins partialTx => exact .printed
  | done coins => exact .stayed
  | ended coins sent result => exact .stayed

end Call

/-! ## One step -/

/-- A property of a record that an update in place does not take away. -/
def Stable (Q : OutputData → Prop) : Prop := ∀ o o' : OutputData, o.Evolves o' → Q o → Q o'

theorem stable_value (value : UInt64) : Stable fun r => r.value = value :=
  fun _ _ he hv => he.value.trans hv

theorem stable_taken : Stable OutputData.Taken := fun _ _ he ht => he.taken ht

theorem recorded_of_keeps {file file' : WalletFile} {k : String} {Q : OutputData → Prop}
    (hQ : Stable Q) (hkeeps : file.Keeps file') (h : Recorded file k Q) : Recorded file' k Q := by
  intro data' hdata'
  obtain ⟨data, hdata, hrecords, -⟩ := hkeeps data' hdata'
  obtain ⟨r, hr, hq⟩ := h data hdata
  obtain ⟨r', hr', he⟩ := hrecords k r hr
  exact ⟨r', hr', hQ r r' he hq⟩

theorem keeps_stored {file : WalletFile} {data data' : WalletData}
    (hread : file.readOrCreate = .ok data)
    (h : data.Keeps data' ∧ (data.WellKeyed → data'.WellKeyed)) : file.Keeps (.stored data') := by
  intro d hd
  obtain rfl := Except.ok.inj hd
  exact ⟨data, hread, h⟩

/-- A step loses nothing, or it rolls back and loses at most the record of its change. -/
theorem Transition.keeps_or_removes {file file' : WalletFile} {l l' : Phase}
    (h : Transition file l l' file') : file.Keeps file' ∨
      ∃ changeKey, l.changeKey = some changeKey ∧ ∀ data', file'.readOrCreate = .ok data' →
        ∃ data, file.readOrCreate = .ok data ∧
          (data' = data ∨ data' = data.deleteOutput changeKey) := by
  cases h with
  | selected | delivered | undelivered | printed | stayed => exact .inl (keeps_refl _)
  | built hread _ hadd =>
    exact .inl (keeps_stored hread ⟨keeps_addOutput hadd, wellKeyed_addOutput hadd⟩)
  | gaveUp _ hkeeps => exact .inl hkeeps
  | lockedFirst hread hlock | lockedLast hread hlock =>
    have hevolves := evolves_lockCoins hlock
    exact .inl (keeps_stored hread ⟨keeps_of_evolves hevolves, wellKeyed_evolves hevolves⟩)
  | notLocked hkeeps => exact .inl hkeeps
  | rolledBack hfile => exact .inr ⟨_, rfl, hfile⟩

/-- A record that is not the change's stays, with what an update does not take away. -/
theorem Transition.recorded {file file' : WalletFile} {l l' : Phase} {k : String}
    {Q : OutputData → Prop} (hQ : Stable Q)
    (hk : ∀ key, l.changeKey = some key → k ≠ key.hexValue)
    (h : Transition file l l' file') (hs : Recorded file k Q) : Recorded file' k Q := by
  rcases h.keeps_or_removes with hkeeps | ⟨changeKey, hkey, hfile⟩
  · exact recorded_of_keeps hQ hkeeps hs
  · intro data' hdata'
    obtain ⟨data, hdata, rfl | rfl⟩ := hfile data' hdata'
    · exact hs data' hdata
    · obtain ⟨r, hr, hq⟩ := hs data hdata
      exact ⟨r, by rw [lookup_deleteOutput, if_neg (hk changeKey hkey), hr], hq⟩

theorem Transition.wellKeyed {file file' : WalletFile} {l l' : Phase}
    (h : Transition file l l' file') (hs : file.Satisfies WalletData.WellKeyed) :
    file'.Satisfies WalletData.WellKeyed := by
  rcases h.keeps_or_removes with hkeeps | ⟨changeKey, -, hfile⟩
  · intro data' hdata'
    obtain ⟨data, hdata, -, hkeyed⟩ := hkeeps data' hdata'
    exact hkeyed (hs data hdata)
  · intro data' hdata'
    obtain ⟨data, hdata, rfl | rfl⟩ := hfile data' hdata'
    · exact hs data' hdata
    · exact wellKeyed_deleteOutput (hs data hdata) changeKey

/-- Locking what is still recorded with its value takes it. -/
theorem taken_of_lockCoins {file : WalletFile} {data data' : WalletData} {coins : List OutputData}
    (hread : file.readOrCreate = .ok data) (hlock : data.lockCoins coins = .ok data')
    {c : OutputData} (hc : c ∈ coins) (hrecord : Recorded file c.keyId fun r => r.value = c.value) :
    Recorded (.stored data') c.keyId OutputData.Taken := by
  intro d hd
  obtain rfl := Except.ok.inj hd
  obtain ⟨r, hr, hvalue⟩ := hrecord data hread
  have hcoin : ∃ c' ∈ coins, c'.keyId = c.keyId ∧ c'.value = r.value := ⟨c, hc, rfl, hvalue.symm⟩
  refine ⟨r.lock, ?_, .inl rfl⟩
  rw [lookup_lockCoins hlock, hr, Option.map_some, if_pos hcoin]

/-! ## The invariant -/

/-- Sends that select one at a time: what they have pending is on record, what they have locked is
taken, no rollback deletes it, and no two of them claim the same coin. -/
structure Inv {ι : Type*} (p : Pool ι World Phase) : Prop where
  keyed : p.shared.file.Satisfies WalletData.WellKeyed
  exclusive : Pool.Exclusive (fun l : Phase => l.busy = true) p
  pending : ∀ i, ∀ c ∈ (p.locals i).pending,
    Recorded p.shared.file c.keyId fun r => r.value = c.value
  secured : ∀ i, ∀ c ∈ (p.locals i).secured, Recorded p.shared.file c.keyId OutputData.Taken
  changes : ∀ i key, (p.locals i).changeKey = some key →
    ∀ j, ∀ c ∈ (p.locals j).secured, c.keyId ≠ key.hexValue
  disjoint : ∀ i j, i ≠ j → ∀ c ∈ (p.locals i).claimed, ∀ c' ∈ (p.locals j).claimed,
    c.keyId ≠ c'.keyId

/-- A send selects only while no other one holds coins that are not locked yet. -/
def Serial {ι : Type*} (i : ι) (p : Pool ι World Phase) : Prop :=
  (p.locals i).isReady = true → ∀ j, j ≠ i → (p.locals j).busy = false

/-- Only the selection makes a send hold unprotected coins. -/
theorem Transition.enters {file file' : WalletFile} {l l' : Phase} (h : Transition file l l' file')
    (hl : l.busy = false) (hl' : l'.busy = true) : l.isReady = true := by
  cases h with
  | selected => rfl
  | built | delivered | undelivered | notLocked | rolledBack => cases hl
  | gaveUp | lockedFirst | lockedLast | printed => cases hl'
  | stayed =>
    rw [hl] at hl'
    cases hl'

/-- A send keeps its claims, apart from the selection. -/
theorem Transition.claimed {file file' : WalletFile} {l l' : Phase} (h : Transition file l l' file')
    (hready : l.isReady = false) : l'.claimed ⊆ l.claimed := by
  cases h with
  | selected => cases hready
  | built | delivered | lockedFirst | lockedLast | notLocked | printed | stayed =>
    exact List.Subset.refl _
  | gaveUp | undelivered => exact List.nil_subset _
  | @rolledBack coins changeKey sent => cases sent <;> exact List.Subset.refl _

variable {ι : Type*} [DecidableEq ι] {p : Pool ι World Phase} {i : ι} {l : Phase} {s : World}

theorem pending_put (hinv : Inv p) (h : Transition p.shared.file (p.locals i) l s.file) (j : ι)
    {c : OutputData} (hc : c ∈ ((p.put i l s).locals j).pending) :
    Recorded s.file c.keyId fun r => r.value = c.value := by
  by_cases hj : j = i
  · subst hj
    rw [Pool.locals_put_self] at hc
    have hold := hinv.pending j
    generalize p.locals j = l₀ at h hold
    generalize s.file = file' at h
    cases h with
    | selected hread hcoins =>
      intro data hdata
      obtain rfl := Except.ok.inj (hread.symm.trans hdata)
      obtain ⟨⟨k, hk⟩, -⟩ := hcoins c hc
      obtain rfl := hinv.keyed _ hread k c hk
      exact ⟨c, hk, rfl⟩
    | built hread hkey hadd =>
      have hkeeps := keeps_stored hread ⟨keeps_addOutput hadd, wellKeyed_addOutput hadd⟩
      exact recorded_of_keeps (stable_value _) hkeeps (hold c hc)
    | delivered => exact hold c hc
    | stayed => exact hold c hc
    | gaveUp | undelivered | lockedFirst | lockedLast | notLocked | rolledBack | printed => cases hc
  · rw [Pool.locals_put_of_ne p hj] at hc
    refine h.recorded (stable_value _) (fun key hkey => ?_) (hinv.pending j c hc)
    exact absurd (Phase.busy_of_changeKey hkey)
      (hinv.exclusive j i hj (Phase.busy_of_pending hc))

theorem secured_put (hinv : Inv p) (h : Transition p.shared.file (p.locals i) l s.file) (j : ι)
    {c : OutputData} (hc : c ∈ ((p.put i l s).locals j).secured) :
    Recorded s.file c.keyId OutputData.Taken := by
  by_cases hj : j = i
  · subst hj
    rw [Pool.locals_put_self] at hc
    have hpending := hinv.pending j
    have hold := hinv.secured j
    generalize p.locals j = l₀ at h hold hpending
    generalize s.file = file' at h
    cases h with
    | lockedFirst hread hlock | lockedLast hread hlock =>
      exact taken_of_lockCoins hread hlock hc (hpending c hc)
    | printed => exact hold c hc
    | stayed => exact hold c hc
    | selected | built | gaveUp | delivered | undelivered | notLocked | rolledBack => cases hc
  · rw [Pool.locals_put_of_ne p hj] at hc
    exact h.recorded stable_taken (fun key hkey => hinv.changes i key hkey j c hc)
      (hinv.secured j c hc)

theorem changes_put (hinv : Inv p) (h : Transition p.shared.file (p.locals i) l s.file)
    {j : ι} {key : Identifier} (hkey : ((p.put i l s).locals j).changeKey = some key) {k : ι}
    {c : OutputData} (hc : c ∈ ((p.put i l s).locals k).secured) : c.keyId ≠ key.hexValue := by
  by_cases hj : j = i
  · subst hj
    rw [Pool.locals_put_self] at hkey
    have hk : k ≠ j := by
      rintro rfl
      rw [Pool.locals_put_self] at hc
      cases l with
      | built | delivered | failing => cases hc
      | ready | selected | locked | done | ended => cases hkey
    rw [Pool.locals_put_of_ne p hk] at hc
    have hold := hinv.changes j key
    have hsecured := hinv.secured k c hc
    generalize p.locals j = l₀ at h hold
    generalize s.file = file' at h
    cases h with
    | built hread hid hadd =>
      -- the key of the change is new, the key id of a locked coin is not
      obtain rfl := Option.some.inj hkey
      obtain ⟨r, hr, -⟩ := hsecured _ hread
      rintro heq
      have hnone := (Dictionary.add_eq_some_iff.mp (addOutput_eq_ok_iff.mp hadd)).1
      rw [hid, ← heq, hr] at hnone
      cases hnone
    | delivered | undelivered | notLocked | stayed => exact hold hkey k c hc
    | selected | gaveUp | lockedFirst | lockedLast | rolledBack | printed => cases hkey
  · rw [Pool.locals_put_of_ne p hj] at hkey
    by_cases hk : k = i
    · subst hk
      rw [Pool.locals_put_self] at hc
      have hbusy := hinv.exclusive j k hj (Phase.busy_of_changeKey hkey)
      have hold := hinv.changes j key hkey k
      generalize p.locals k = l₀ at h hold hbusy
      generalize s.file = file' at h
      cases h with
      | lockedFirst | lockedLast => exact absurd rfl hbusy
      | printed => exact hold c hc
      | stayed => exact hold c hc
      | selected | built | gaveUp | delivered | undelivered | notLocked | rolledBack => cases hc
    · rw [Pool.locals_put_of_ne p hk] at hc
      exact hinv.changes j key hkey k c hc

omit [DecidableEq ι] in
/-- The coins a send selects are claimed by no other one. -/
theorem disjoint_select (hinv : Inv p) (hserial : Serial i p) {coins : List OutputData}
    {data : WalletData} (hready : p.locals i = .ready) (hread : p.shared.file.readOrCreate = .ok data)
    (hcoins : ∀ c ∈ coins, (∃ k, data.outputs.lookup k = some c) ∧ ¬ c.Taken) {j : ι} (hj : j ≠ i)
    {c c' : OutputData} (hc : c ∈ coins) (hc' : c' ∈ (p.locals j).claimed) : c.keyId ≠ c'.keyId := by
  have hbusy := hserial (by rw [hready]; rfl) j hj
  rw [Phase.secured_of_claimed hbusy] at hc'
  obtain ⟨⟨k, hk⟩, htaken⟩ := hcoins c hc
  obtain ⟨r, hr, hrtaken⟩ := hinv.secured j c' hc' data hread
  intro heq
  rw [← heq, hinv.keyed data hread k c hk, hk] at hr
  obtain rfl := Option.some.inj hr
  exact htaken hrtaken

omit [DecidableEq ι] in
theorem disjoint_put (hinv : Inv p) (hserial : Serial i p)
    (h : Transition p.shared.file (p.locals i) l s.file) {j : ι} (hj : j ≠ i) {c c' : OutputData}
    (hc : c ∈ l.claimed) (hc' : c' ∈ (p.locals j).claimed) : c.keyId ≠ c'.keyId := by
  by_cases hready : (p.locals i).isReady = true
  · have hphase : p.locals i = .ready := by
      cases hl : p.locals i with
      | ready => rfl
      | selected | built | delivered | failing | locked | done | ended =>
        rw [hl] at hready
        cases hready
    rw [hphase] at h
    generalize s.file = file' at h
    cases h with
    | selected hread hcoins => exact disjoint_select hinv hserial hphase hread hcoins hj hc hc'
    | gaveUp | stayed => cases hc
  · have hclaimed := h.claimed (by simpa using hready) hc
    exact hinv.disjoint i j (Ne.symm hj) c hclaimed c' hc'

/-- A step of a send keeps the invariant. -/
theorem inv_put (hinv : Inv p) (hserial : Serial i p)
    (h : Transition p.shared.file (p.locals i) l s.file) : Inv (p.put i l s) where
  keyed := h.wellKeyed hinv.keyed
  exclusive := by
    have hstep : Pool.Step (fun i p l s => Serial i p ∧ Transition p.shared.file (p.locals i) l s.file)
        (fun _ _ => False) p (some i) (p.put i l s) := .own ⟨hserial, h⟩
    refine Pool.exclusive_of_step (fun i p l s hown hl hi j hj => ?_) hinv.exclusive hstep
    have hready := hown.2.enters (by simpa using hi) hl
    simp [hown.1 hready j hj]
  pending := fun j _ hc => pending_put hinv h j hc
  secured := fun j _ hc => secured_put hinv h j hc
  changes := fun _ _ hkey _ _ hc => changes_put hinv h hkey hc
  disjoint := by
    have hsymm : ∀ a b : Phase, (∀ c ∈ a.claimed, ∀ c' ∈ b.claimed, c.keyId ≠ c'.keyId) →
        ∀ c ∈ b.claimed, ∀ c' ∈ a.claimed, c.keyId ≠ c'.keyId :=
      fun _ _ hab c hc c' hc' => (hab c' hc' c hc).symm
    exact Pool.pairwise_locals_put hsymm hinv.disjoint fun j hj c hc c' hc' =>
      disjoint_put hinv hserial h hj hc hc'

/-! ## Runs -/

/-- What else happens to the wallet file: a refresh applies, a payment or a reward is received. -/
inductive Meanwhile (env : Env) : World → World → Prop
  | refreshed (config : WalletConfig) (attempt : Attempt) (s : Checker.Snapshot)
      (answers : Dictionary String ApiOutput) (w : World) :
      Meanwhile env w ((withWallet config attempt (Checker.applied s answers)).exec w).2
  | received (config : WalletConfig) (attempt : Attempt) (kc : Keychain env) (outAmount : UInt64)
      (w : World) :
      Meanwhile env w ((withWallet config attempt (WalletReceiver.addReceived kc outAmount)).exec w).2
  | rewarded (config : WalletConfig) (attempt : Attempt) (kc : Keychain env) (blockFees : BlockFees)
      (w : World) :
      Meanwhile env w ((withWallet config attempt (WalletReceiver.addCoinbase kc blockFees)).exec w).2

theorem keeps_of_meanwhile {w w' : World} (h : Meanwhile env w w') : w.file.Keeps w'.file := by
  cases h with
  | refreshed => exact keeps_withWallet fun _ _ _ => CheckerLemmas.keeps_applied
  | received => exact keeps_withWallet fun _ _ _ => ReceiverLemmas.keeps_addReceived
  | rewarded => exact keeps_withWallet fun _ _ _ => ReceiverLemmas.keeps_addCoinbase

omit [DecidableEq ι] in
/-- A change of the file that loses nothing keeps the invariant. -/
theorem inv_keeps (hinv : Inv p) (h : p.shared.file.Keeps s.file) : Inv { p with shared := s } where
  keyed := fun data' hdata' =>
    have ⟨data, hdata, _, hkeyed⟩ := h data' hdata'
    hkeyed (hinv.keyed data hdata)
  exclusive := hinv.exclusive
  pending := fun i c hc => recorded_of_keeps (stable_value _) h (hinv.pending i c hc)
  secured := fun i c hc => recorded_of_keeps stable_taken h (hinv.secured i c hc)
  changes := hinv.changes
  disjoint := hinv.disjoint

/-- Sends that select one at a time, on a wallet that files every record under its key id. -/
theorem inv_of_run {calls : ι → Call env} {q : Pool ι World Phase} {history : List (Option ι)}
    (hstart : ∀ i, p.locals i = .ready) (hkeyed : p.shared.file.Satisfies WalletData.WellKeyed)
    (hrun : Run (Pool.Step (Pool.Moves (fun i => (calls i).move) Serial) (Meanwhile env)) p history q) :
    Inv q := by
  have hfirst : Inv p :=
    { keyed := hkeyed
      exclusive := fun i _ _ hi => by simp [hstart i, Phase.busy] at hi
      pending := fun i c hc => by simp [hstart i, Phase.pending] at hc
      secured := fun i c hc => by simp [hstart i, Phase.secured] at hc
      changes := fun i key hkey => by simp [hstart i, Phase.changeKey] at hkey
      disjoint := fun i _ _ c hc => by simp [hstart i, Phase.claimed] at hc }
  refine hrun.invariant (fun p₁ who p₂ hinv hstep => ?_) hfirst
  cases hstep with
  | @own i _ l s hown =>
    obtain ⟨hserial, hmove⟩ := hown
    have htransition := (calls i).transition_move (p₁.locals i) p₁.shared
    rw [show (calls i).move (p₁.locals i) p₁.shared = (l, s) from hmove] at htransition
    exact inv_put hinv hserial htransition
  | outer houter => exact inv_keeps hinv (keeps_of_meanwhile houter)

/-- When every send selects only while no other one holds coins that it has not locked, no coin is
spent by two partial transactions that are delivered. -/
theorem delivered_disjoint {calls : ι → Call env} {q : Pool ι World Phase}
    {history : List (Option ι)} (hstart : ∀ i, p.locals i = .ready)
    (hkeyed : p.shared.file.Satisfies WalletData.WellKeyed)
    (hrun : Run (Pool.Step (Pool.Moves (fun i => (calls i).move) Serial) (Meanwhile env)) p history q)
    {i j : ι} (hij : i ≠ j) :
    ((q.locals i).spent.map (·.keyId)).Disjoint ((q.locals j).spent.map (·.keyId)) := by
  have hinv := inv_of_run hstart hkeyed hrun
  intro k hi hj
  obtain ⟨c, hc, rfl⟩ := List.mem_map.mp hi
  obtain ⟨c', hc', heq⟩ := List.mem_map.mp hj
  exact hinv.disjoint i j hij c ((q.locals i).spent_subset_claimed hc) c'
    ((q.locals j).spent_subset_claimed hc') heq.symm

/-! ### Over pairs -/

instance decidableSerial [Fintype ι] (i : ι) (p : Pool ι World Phase) : Decidable (Serial i p) :=
  inferInstanceAs (Decidable (_ → ∀ j, j ≠ i → _))

/-- Two sends of the same kind that have not begun. -/
def pairSends : Pool Bool World Phase := ⟨pairWorld, fun _ => .ready⟩

/-- The first send locks its coin before the second one selects. -/
theorem delivered_disjoint_pairs :
    ((((Pool.schedule (fun _ => pairCall.move) pairSends
        [false, false, false, false, true, true, true]).locals false).spent).map (·.keyId)).Disjoint
      (((Pool.schedule (fun _ => pairCall.move) pairSends
        [false, false, false, false, true, true, true]).locals true).spent.map (·.keyId)) ∧
    ((Pool.schedule (fun _ => pairCall.move) pairSends
      [false, false, false, false, true, true, true]).locals false).spent ≠ [] ∧
    ((Pool.schedule (fun _ => pairCall.move) pairSends
      [false, false, false, false, true, true, true]).locals true).spent ≠ [] := by
  have hrun : Pool.Allowed (fun _ : Bool => pairCall.move) Serial pairSends
        [false, false, false, false, true, true, true] ∧
      ((Pool.schedule (fun _ => pairCall.move) pairSends
        [false, false, false, false, true, true, true]).locals false).spent ≠ [] ∧
      ((Pool.schedule (fun _ => pairCall.move) pairSends
        [false, false, false, false, true, true, true]).locals true).spent ≠ [] := by decide +kernel
  exact ⟨delivered_disjoint (fun _ => rfl) (satisfies_stored.mpr wellKeyed_pairWallet)
    (Pool.run_schedule hrun.1) (by decide), hrun.2⟩

/-- Two sends that both select before either has locked: both partial transactions are delivered,
and both spend the same coin. -/
theorem delivered_twice :
    ∃ q : Pool Bool World Phase,
      Run (Pool.Step (Pool.Moves (fun _ => pairCall.move) fun _ _ => True) (Meanwhile Pairs.env))
        pairSends ([false, true, false, true, false, true].map some) q ∧
      pairSends.shared.file.Satisfies WalletData.WellKeyed ∧
      q.shared.delivered.length = 2 ∧
      (q.locals false).spent = [pairCoin 1 10000000] ∧
      (q.locals true).spent = [pairCoin 1 10000000] := by
  have hallowed : Pool.Allowed (fun _ : Bool => pairCall.move) (fun _ _ => True) pairSends
      [false, true, false, true, false, true] := by simp [Pool.Allowed]
  refine ⟨_, Pool.run_schedule hallowed, satisfies_stored.mpr wellKeyed_pairWallet, ?_⟩
  decide +kernel

end Sender

end GrinDotnet
