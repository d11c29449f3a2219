import GrinDotnet.Wallet.DoubleSelection

/-!
# Spent outputs

A refresh only ever moves an output towards `Spent`: it looks at the status before it writes. The
lock does not: `Lock_output` compares the values and sets the status, and the coins of a send are
those of an older snapshot.

Results:
1. `spent_move`: what a step of a send does to a spent record.
2. `spent_final`: when no send locks a record that was spent meanwhile, it stays spent.
3. `locked_again`: a refresh between the delivery and the lock, and a spent output is locked.
-/

namespace GrinDotnet

open BigEndian Outcome WorldLemmas WalletLemmas

variable {env : Env}

/-- The record under the key is spent. -/
def WalletData.Spent (data : WalletData) (k : String) : Prop :=
  ∃ r, data.outputs.lookup k = some r ∧ r.status = .spent

/-! ## The four writers -/

namespace FinalityLemmas

variable {data data' : WalletData} {k : String}

/-- An output is added under a new key. -/
theorem spent_addOutput {o : OutputData} (h : data.addOutput o = .ok data') (hs : data.Spent k) :
    data'.Spent k := by
  obtain ⟨r, hr, hspent⟩ := hs
  have hne : k ≠ o.keyId := by
    rintro rfl
    rw [(Dictionary.add_eq_some_iff.mp (addOutput_eq_ok_iff.mp h)).1] at hr
    cases hr
  exact ⟨r, by rw [lookup_addOutput h, if_neg hne, hr], hspent⟩

/-- The lock does not look at the status, so it has to be kept off by the value or the key. -/
theorem spent_lockCoins {coins : List OutputData} (h : data.lockCoins coins = .ok data')
    (hcoins : ∀ r, data.outputs.lookup k = some r → ∀ c ∈ coins, c.keyId = k → c.value ≠ r.value)
    (hs : data.Spent k) : data'.Spent k := by
  obtain ⟨r, hr, hspent⟩ := hs
  have hnone : ¬ ∃ c ∈ coins, c.keyId = k ∧ c.value = r.value := by
    rintro ⟨c, hc, hkey, hvalue⟩
    exact hcoins r hr c hc hkey hvalue
  refine ⟨r, ?_, hspent⟩
  rw [lookup_lockCoins h, hr, Option.map_some, if_neg hnone]

theorem spent_deleteOutput {id : Identifier} (hid : id.hexValue ≠ k) (hs : data.Spent k) :
    (data.deleteOutput id).Spent k := by
  obtain ⟨r, hr, hspent⟩ := hs
  exact ⟨r, by rw [lookup_deleteOutput, if_neg (Ne.symm hid), hr], hspent⟩

/-- Whatever the node answers, a refresh leaves a spent record spent. -/
theorem status_refreshed {answer : Option ApiOutput} {o : OutputData} (h : o.status = .spent) :
    (Checker.refreshed answer o).status = .spent := by
  cases answer <;>
    simp [Checker.refreshed, Checker.refreshOutput, Checker.markSpentOutput, h]

theorem spent_apply {s : Checker.Snapshot} {answers : Dictionary String ApiOutput}
    (h : Checker.apply s answers data = .ok data') (hs : data.Spent k) : data'.Spent k := by
  refine foldlM_preserves (P := fun d : WalletData => d.Spent k)
    (fun d commit d' _ hd hstep => ?_) h hs
  obtain ⟨id, -, hlookup⟩ := CheckerLemmas.lookup_applyStep hstep
  obtain ⟨r, hr, hspent⟩ := hd
  refine ⟨_, by rw [hlookup, hr, Option.map_some], ?_⟩
  split
  · exact status_refreshed hspent
  · exact hspent

end FinalityLemmas

namespace Sender

open FinalityLemmas

namespace Call

variable (call : Call env) {k : String}

/-- The coins that the next step of a send locks: at once for `stdout`, else after the delivery. -/
def locksNext : Phase → List OutputData
  | .built coins _ _ => if call.args.dest = "stdout" then coins else []
  | .delivered coins _ => coins
  | _ => []

/-- The change that the next step of a send deletes. -/
def deletesNext : Phase → Option Identifier
  | .failing _ changeKey _ => some changeKey
  | _ => none

/-- The next step keeps off the record under the key if it is spent: what it sets out to lock or delete is
not that record, also where the step then fails. -/
def Spares (k : String) (l : Phase) (file : WalletFile) : Prop :=
  ∀ r ∈ file.record? k, r.status = .spent →
    (∀ c ∈ call.locksNext l, c.keyId = k → c.value ≠ r.value) ∧
      ∀ key ∈ deletesNext l, key.hexValue ≠ k

theorem spent_select (w : World) (hs : w.file.Satisfies (·.Spent k)) :
    (call.select w).2.file.Satisfies (·.Spent k) := by
  rwa [call.select_snd]

theorem spent_build (coins : List OutputData) (w : World) (hs : w.file.Satisfies (·.Spent k)) :
    (call.build coins w).2.file.Satisfies (·.Spent k) := by
  have hparts : ((inputsAndChange call.config call.kc call.script.addChange coins
      call.args.amount).exec w).2.file.Satisfies (·.Spent k) := by
    refine satisfies_bind hs fun funds w₁ hs₁ => ?_
    refine satisfies_bind ?_ fun changeKey w₂ hs₂ => hs₂
    refine satisfies_withWallet (fun data _ data' _ hdata hclosure => ?_) hs₁
    exact spent_addOutput (SenderLemmas.addChange_eq_ok.mp hclosure).2 hdata
  unfold build
  rcases hresult : (inputsAndChange call.config call.kc call.script.addChange coins
    call.args.amount).exec w with ⟨e | ⟨parts, changeKey⟩, w'⟩ <;> rw [hresult] at hparts
  · exact hparts
  · simp only
    cases Build.transaction (parts ++ [Build.withLockHeight call.height]) call.kc <;> exact hparts

/-- `UpdateWallet` spares a record whose value no coin has. -/
theorem spent_updateWallet {coins : List OutputData} {w : World}
    (hcoins : ∀ r ∈ w.file.record? k, r.status = .spent → ∀ c ∈ coins, c.keyId = k →
      c.value ≠ r.value) (hs : w.file.Satisfies (·.Spent k)) :
    ((updateWallet call.config call.script.lock coins).exec w).2.file.Satisfies (·.Spent k) := by
  refine satisfies_withWallet (fun data _ data' hread hdata hclosure => ?_) hs
  obtain ⟨d, hlock, hd⟩ := bind_eq_ok.mp hclosure
  cases hd
  obtain ⟨r, hr, hspent⟩ := hdata
  refine spent_lockCoins hlock (fun r' hr' => ?_) ⟨r, hr, hspent⟩
  obtain rfl := Option.some.inj (hr.symm.trans hr')
  exact hcoins r (by rw [record?_of_read hread, hr]; rfl) hspent

/-- A step that spares the record leaves it spent. -/
theorem spent_move {l : Phase} {w : World} (hspares : call.Spares k l w.file)
    (hs : w.file.Satisfies (·.Spent k)) : (call.move l w).2.file.Satisfies (·.Spent k) := by
  cases l with
  | ready => exact call.spent_select w hs
  | selected coins => exact call.spent_build coins w hs
  | built coins changeKey partialTx =>
    simp only [move, deliver]
    split
    · next hdest =>
      have hcoins : ∀ r ∈ w.file.record? k, r.status = .spent → ∀ c ∈ coins, c.keyId = k →
          c.value ≠ r.value := by
        intro r hr hspent
        simpa [locksNext, hdest] using (hspares r hr hspent).1
      have hlock := call.spent_updateWallet hcoins hs
      rcases hresult : (updateWallet call.config call.script.lock coins).exec w with ⟨e | u, w'⟩ <;>
        rw [hresult] at hlock <;> exact hlock
    · split
      · unfold sendPartialTx
        cases call.script.delivery <;> exact hs
      · exact hs
  | delivered coins changeKey =>
    have hcoins : ∀ r ∈ w.file.record? k, r.status = .spent → ∀ c ∈ coins, c.keyId = k →
        c.value ≠ r.value := fun r hr hspent => (hspares r hr hspent).1
    have hlock := call.spent_updateWallet hcoins hs
    simp only [move]
    rcases hresult : (updateWallet call.config call.script.lock coins).exec w with ⟨e | u, w'⟩ <;>
      rw [hresult] at hlock <;> exact hlock
  | failing coins changeKey sent =>
    refine satisfies_withWallet (fun data _ data' hread hdata hclosure => ?_) hs
    cases hclosure
    obtain ⟨r, hr, hspent⟩ := hdata
    have hkey := (hspares r (by rw [record?_of_read hread, hr]; rfl) hspent).2 changeKey rfl
    exact spent_deleteOutput hkey ⟨r, hr, hspent⟩
  | locked coins partialTx => exact hs
  | done coins => exact hs
  | ended coins sent result => exact hs

end Call

/-- Refreshes and receipts leave a spent record spent. -/
theorem spent_meanwhile {k : String} {w w' : World} (h : Meanwhile env w w')
    (hs : w.file.Satisfies (·.Spent k)) : w'.file.Satisfies (·.Spent k) := by
  cases h with
  | refreshed =>
    refine satisfies_withWallet (fun data _ data' _ hdata hclosure => ?_) hs
    exact spent_apply (CheckerLemmas.applied_eq_ok.mp hclosure) hdata
  | received =>
    refine satisfies_withWallet (fun data _ data' _ hdata hclosure => ?_) hs
    exact spent_addOutput (ReceiverLemmas.addReceived_eq_ok.mp hclosure).2.2 hdata
  | rewarded =>
    refine satisfies_withWallet (fun data _ data' _ hdata hclosure => ?_) hs
    obtain ⟨o, hadd⟩ := ReceiverLemmas.exists_addOutput_of_addCoinbase hclosure
    exact spent_addOutput hadd hdata

variable {ι : Type*} [DecidableEq ι] {p q : Pool ι World Phase} {history : List (Option ι)}

/-- In every run of sends, refreshes and receipts whose sends keep off the record under a key once it
is spent, it stays spent. -/
theorem spent_final {calls : ι → Call env} {k : String}
    (hspent : p.shared.file.Lists k fun r => r.status = .spent)
    (hrun : Run (Pool.Step
      (Pool.Moves (fun i => (calls i).move) fun i p => (calls i).Spares k (p.locals i) p.shared.file)
      (Meanwhile env)) p history q) :
    q.shared.file.Satisfies (·.Spent k) := by
  have hfirst : p.shared.file.Satisfies (·.Spent k) := by
    obtain ⟨data, hread, hdata⟩ := hspent
    intro data' hread'
    obtain rfl := Except.ok.inj (hread.symm.trans hread')
    exact hdata
  refine Run.invariant (P := fun p : Pool ι World Phase => p.shared.file.Satisfies (·.Spent k))
    (fun p₁ who p₂ hs hstep => ?_) hrun hfirst
  cases hstep with
  | @own i _ l s hown =>
    obtain ⟨hspares, hmove⟩ := hown
    have hnext := (calls i).spent_move hspares hs
    rw [show (calls i).move (p₁.locals i) p₁.shared = (l, s) from hmove] at hnext
    exact hnext
  | outer houter => exact spent_meanwhile houter hs

/-! ### Over pairs -/

instance (call : Call env) (k : String) (l : Phase) (file : WalletFile) :
    Decidable (call.Spares k l file) :=
  inferInstanceAs (Decidable (∀ r ∈ file.record? k, r.status = .spent → _ ∧ _))

/-- A wallet whose first coin is spent. -/
def pairSpentWallet : WalletData where
  outputs :=
    { entries := [{ pairCoin 1 10000000 with status := .spent }, pairCoin 2 10000000].map
        fun c => (c.keyId, c)
      nodup := by decide +kernel }

/-- A send of the other coin, from its selection to its lock, does not touch the first one. -/
theorem spent_final_pairs :
    (Pool.schedule (fun _ => pairCall.move) ⟨⟨.stored pairSpentWallet, false, [], []⟩,
        fun _ : Unit => .ready⟩ [(), (), (), ()]).shared.file.Satisfies
      (·.Spent (pairCoin 1 10000000).keyId) := by
  have hallowed : Pool.Allowed (fun _ : Unit => pairCall.move)
      (fun _ p => pairCall.Spares (pairCoin 1 10000000).keyId (p.locals ()) p.shared.file)
      ⟨⟨.stored pairSpentWallet, false, [], []⟩, fun _ => .ready⟩ [(), (), (), ()] := by
    decide +kernel
  have hrun : Run (Pool.Step (Pool.Moves (fun _ : Unit => pairCall.move) fun _ p =>
      pairCall.Spares (pairCoin 1 10000000).keyId (p.locals ()) p.shared.file) (Meanwhile Pairs.env))
      ⟨⟨.stored pairSpentWallet, false, [], []⟩, fun _ => .ready⟩ ([(), (), (), ()].map some) _ :=
    Pool.run_schedule hallowed
  exact spent_final ⟨pairSpentWallet, rfl, _, rfl, rfl⟩ hrun

/-- A wallet of one coin. -/
def pairSingle : WalletData := ⟨⟨[((pairCoin 1 10000000).keyId, pairCoin 1 10000000)], by simp⟩⟩

/-- A send on it that has not begun. -/
def pairSend : Pool Unit World Phase := ⟨⟨.stored pairSingle, false, [], []⟩, fun _ => .ready⟩

deriving instance DecidableEq for Checker.Snapshot

/-- What a refresh remembers of it. -/
def pairSnapshot : Checker.Snapshot :=
  ⟨[⟨Pairs.save 10000000 7⟩],
    ⟨[((⟨Pairs.save 10000000 7⟩ : Commitment).hex, ⟨ofNat 10 7⟩)], by simp⟩⟩

/-- The send is delivered. -/
def pairDelivered : Pool Unit World Phase :=
  Pool.schedule (fun _ => pairCall.move) pairSend [(), (), ()]

/-- The coin is gone from the chain when the refresh asks the node, and its answer is applied. -/
def pairRefreshed : Pool Unit World Phase :=
  { pairDelivered with
    shared := ((withWallet ⟨""⟩ .calm (Checker.applied pairSnapshot Dictionary.empty)).exec
      pairDelivered.shared).2 }

/-- The coin is spent after a refresh that began before the send, and then the send locks it. -/
theorem locked_again :
    Checker.snapshot pairSender pairSingle = .ok pairSnapshot ∧
    ∃ q : Pool Unit World Phase, ∃ history history',
      Run (Pool.Step (Pool.Moves (fun _ => pairCall.move) fun _ _ => True) (Meanwhile Pairs.env))
        pairSend history pairRefreshed ∧
      Run (Pool.Step (Pool.Moves (fun _ => pairCall.move) fun _ _ => True) (Meanwhile Pairs.env))
        pairRefreshed history' q ∧
      (pairRefreshed.shared.file.record? (pairCoin 1 10000000).keyId).map (·.status) = some .spent ∧
      (q.shared.file.record? (pairCoin 1 10000000).keyId).map (·.status) = some .locked := by
  have hdelivered : Pool.Allowed (fun _ : Unit => pairCall.move) (fun _ _ => True) pairSend
      [(), (), ()] := by simp [Pool.Allowed]
  have hlocks : Pool.Allowed (fun _ : Unit => pairCall.move) (fun _ _ => True) pairRefreshed
      [()] := by simp [Pool.Allowed]
  have hrefresh : Run (Pool.Step (Pool.Moves (fun _ : Unit => pairCall.move) fun _ _ => True)
      (Meanwhile Pairs.env)) pairDelivered [none] pairRefreshed :=
    Run.single (.outer (.refreshed ⟨""⟩ .calm pairSnapshot Dictionary.empty pairDelivered.shared))
  refine ⟨?_, _, _, _, (Pool.run_schedule hdelivered).trans hrefresh, Pool.run_schedule hlocks,
    ?_, ?_⟩
  · decide +kernel
  · decide +kernel
  · decide +kernel

end Sender

end GrinDotnet
