import GrinDotnet.Lib.Ownership
import GrinDotnet.Wallet.DoubleSelection
import GrinDotnet.Wallet.Server

/-!
# Concurrent requests

Any number of requests run on one wallet file and one node, each taking its steps when it likes. Any
of them may stop for good at any step, and the server may be restarted.

Results:
1. `advance_move`: everything one step of a request can do to its stage and to the file.
2. `owned_of_run`: what a request has recorded stays, under a key of its own.
3. `received_kept`: every payment and every reward that was acknowledged keeps its record.
-/

namespace GrinDotnet

open Outcome WorldLemmas WalletLemmas Sender

variable {env : Env}

namespace ServerController

namespace Stage

/-- The key of the record that a request answers for. -/
def key? : Stage env → Option String
  | sending _ phase => phase.changeKey.map (·.hexValue)
  | credited credit => some credit.keyId.hexValue
  | posted credit => some credit.keyId.hexValue
  | answered (some credit) _ => some credit.keyId.hexValue
  | answered none (.ok (.json cb)) => some cb.keyId
  | _ => none

end Stage

/-- The record of a payment. -/
def Credit.Recorded (services : Services env) (credit : Credit env) (r : OutputData) : Prop :=
  r.rootKeyId = services.kc.rootKeyId.hexValue ∧
    r.value = credit.amount - WalletReceiver.recipientFee credit.tx

/-- The record of a reward. -/
def Rewarded (services : Services env) (blockFees : BlockFees) (r : OutputData) : Prop :=
  r.rootKeyId = services.kc.rootKeyId.hexValue ∧ r.value = Consensus.reward blockFees.fees

/-- What a request answers for in the record under its key. -/
def Records (services : Services env) : Request → Stage env → OutputData → Prop
  | _, .credited credit, r => credit.Recorded services r
  | _, .posted credit, r => credit.Recorded services r
  | _, .answered (some credit) _, r => credit.Recorded services r
  | .receiveCoinbase (.ok (some blockFees)) _, .answered none _, r => Rewarded services blockFees r
  | _, _, _ => True

theorem stable_recorded (services : Services env) (credit : Credit env) :
    Stable (credit.Recorded services) :=
  fun _ _ he h => ⟨he.rootKeyId.trans h.1, he.value.trans h.2⟩

theorem stable_rewarded (services : Services env) (blockFees : BlockFees) :
    Stable (Rewarded services blockFees) :=
  fun _ _ he h => ⟨he.rootKeyId.trans h.1, he.value.trans h.2⟩

theorem stable_records (services : Services env) (request : Request) (stage : Stage env) :
    Stable (Records services request stage) := by
  have htrue : Stable fun _ => True := fun _ _ _ h => h
  cases stage with
  | credited credit => exact stable_recorded services credit
  | posted credit => exact stable_recorded services credit
  | arrived | queried | refreshed | sending => exact htrue
  | answered credit response =>
    cases credit with
    | some credit => exact stable_recorded services credit
    | none =>
      match request with
      | .receiveCoinbase (.ok (some blockFees)) _ => exact stable_rewarded services blockFees
      | .receiveCoinbase (.ok none) _ => exact htrue
      | .receiveCoinbase (.error _) _ => exact htrue
      | .info _ => exact htrue
      | .send _ => exact htrue
      | .receiveTransaction _ _ _ => exact htrue

/-! ## Steps -/

/-- What one step of a request does to its stage and to the wallet file. -/
inductive Advance (services : Services env) (request : Request) (file : WalletFile) :
    Stage env → Stage env → WalletFile → Prop
  /-- Nothing is lost, and the request answers for nothing new. -/
  | kept {l l' : Stage env} {file' : WalletFile} :
      file.Keeps file' →
      (l'.key? = none ∨
        l'.key? = l.key? ∧ ∀ r, Records services request l r → Records services request l' r) →
      Advance services request file l l' file'
  /-- A step of a send. -/
  | sent {height : UInt64} {phase phase' : Phase} {file' : WalletFile} :
      Transition file phase phase' file' →
      Advance services request file (.sending height phase) (.sending height phase') file'
  /-- A new record that the request answers for. -/
  | recorded {l l' : Stage env} {data data' : WalletData} {o : OutputData} :
      file.readOrCreate = .ok data → data.addOutput o = .ok data' → l'.key? = some o.keyId →
      Records services request l' o →
      Advance services request file l l' (.stored data')

section Advance

variable (services : Services env)

theorem advance_query (request : Request) (script : Checker.RefreshScript) (l : Stage env)
    (s : ServerState) :
    Advance services request s.world.file l (query services script s).1
      (query services script s).2.world.file := by
  have hsame := readWallet_snd script.readFault (Checker.snapshot services.kc) s.world
  unfold query
  rcases hread : (readWallet script.readFault (Checker.snapshot services.kc)).exec s.world
    with ⟨e | snapshot, w⟩ <;> rw [hread] at hsame <;> obtain rfl : w = s.world := hsame
  · exact .kept (keeps_refl _) (.inl rfl)
  cases script.answer with
  | unreachable | failureStatus | malformed => exact .kept (keeps_refl _) (.inl rfl)
  | outputs outputs =>
    simp only
    cases Checker.apiOutputs outputs with
    | error e => exact .kept (keeps_refl _) (.inl rfl)
    | ok answers => exact .kept (keeps_refl _) (.inl rfl)

theorem advance_applyAnswers (request : Request) (attempt : Attempt) (snapshot : Checker.Snapshot)
    (answers : Dictionary String ApiOutput) (l : Stage env) (s : ServerState) :
    Advance services request s.world.file l (applyAnswers services attempt snapshot answers s).1
      (applyAnswers services attempt snapshot answers s).2.world.file := by
  have hkeeps : s.world.file.Keeps ((withWallet services.config attempt
      (Checker.applied snapshot answers)).exec s.world).2.file :=
    keeps_withWallet fun _ _ _ => CheckerLemmas.keeps_applied
  unfold applyAnswers
  rcases hwrite : (withWallet services.config attempt
    (Checker.applied snapshot answers)).exec s.world with ⟨e | ⟨⟩, w⟩ <;> rw [hwrite] at hkeeps
  · exact .kept hkeeps (.inl rfl)
  · exact .kept hkeeps (.inl rfl)

theorem advance_report (request : Request) (script : Info.InfoScript) (result : Bool) (l : Stage env)
    (s : ServerState) :
    Advance services request s.world.file l (report services script result s).1
      (report services script result s).2.world.file := by
  have hsame := readWallet_snd script.readFault
    (fun walletData => .ok (Info.summary services.kc.rootKeyId script.tip walletData)) s.world
  unfold report
  rcases hread : (readWallet script.readFault fun walletData =>
    .ok (Info.summary services.kc.rootKeyId script.tip walletData)).exec s.world
      with ⟨e | text, w⟩ <;> rw [hread] at hsame <;> obtain rfl : w = s.world := hsame
  · exact .kept (keeps_refl _) (.inl rfl)
  · exact .kept (keeps_refl _) (.inl rfl)

theorem advance_send (request : Request) (script : SendScript) (height : UInt64) (phase : Phase)
    (s : ServerState) :
    Advance services request s.world.file (.sending height phase)
      (send services script height phase s).1
      (send services script height phase s).2.world.file := by
  unfold send
  rcases phase.result with _ | (e | ⟨⟩)
  · exact .sent ((call services script height).transition_move phase s.world)
  · exact .kept (keeps_refl _) (.inl rfl)
  · exact .kept (keeps_refl _) (.inl rfl)

theorem advance_credit (request : Request) (attempt : Attempt) (partialTx : PartialTx)
    (l : Stage env) (s : ServerState) :
    Advance services request s.world.file l (credit services attempt partialTx s).1
      (credit services attempt partialTx s).2.world.file := by
  unfold credit
  rcases readPartialTx env partialTx with e | ⟨amount, blinding, tx⟩
  · exact .kept (keeps_refl _) (.inl rfl)
  simp only
  split
  · exact .kept (keeps_refl _) (.inl rfl)
  have hkeeps : s.world.file.Keeps ((withWallet services.config attempt (WalletReceiver.addReceived
      services.kc (amount - WalletReceiver.recipientFee tx))).exec s.world).2.file :=
    keeps_withWallet fun _ _ _ => ReceiverLemmas.keeps_addReceived
  rcases hwrite : (withWallet services.config attempt (WalletReceiver.addReceived services.kc
    (amount - WalletReceiver.recipientFee tx))).exec s.world with ⟨e | ⟨keyId, derivation⟩, w⟩
  · rw [hwrite] at hkeeps
    exact .kept hkeeps (.inl rfl)
  · obtain ⟨data, data', hread, hadd, rfl⟩ := withWallet_eq_ok hwrite
    exact .recorded hread (ReceiverLemmas.addReceived_eq_ok.mp hadd).2.2 rfl ⟨rfl, rfl⟩

/-- A reward is one more record, under the key it is answered with. -/
theorem addOutput_of_addCoinbase {kc : Keychain env} {blockFees : BlockFees}
    {data data' : WalletData} {keyId : Identifier} {derivation : UInt32}
    (h : WalletReceiver.addCoinbase kc blockFees data = .ok ((keyId, derivation), data')) :
    data.addOutput (WalletReceiver.receivedOutput kc keyId derivation
      (Consensus.reward blockFees.fees) true) = .ok data' := by
  unfold WalletReceiver.addCoinbase at h
  split at h <;> obtain ⟨⟨keyId', derivation'⟩, -, h⟩ := bind_eq_ok.mp h <;>
    obtain ⟨d, hd, h⟩ := bind_eq_ok.mp h <;> cases h <;> exact hd

/-- A reward is answered with the key it is recorded under. -/
theorem keyId_of_receiveCoinbase {config : WalletConfig} {kc : Keychain env} {attempt : Attempt}
    {blockFees after : BlockFees} {out : Output} {kern : TxKernel} {w w' : World}
    (h : (WalletReceiver.receiveCoinbase config kc attempt blockFees).exec w
      = (.ok (out, kern, after), w')) :
    ∃ data data' keyId derivation, w.file.readOrCreate = .ok data ∧
      WalletReceiver.addCoinbase kc blockFees data = .ok ((keyId, derivation), data') ∧
      after.keyId = some keyId ∧ w'.file = .stored data' := by
  obtain ⟨⟨keyId, derivation⟩, w₁, hwrite, h⟩ := WalletM.exec_bind_eq_ok.mp h
  obtain ⟨data, data', hread, hadd, rfl⟩ := withWallet_eq_ok hwrite
  obtain ⟨built, w₂, hlift, h⟩ := WalletM.exec_bind_eq_ok.mp h
  obtain ⟨-, rfl⟩ := Prod.mk.inj hlift
  obtain ⟨hresult, rfl⟩ := Prod.mk.inj h
  obtain ⟨-, -, rfl⟩ : built.1 = out ∧ built.2 = kern ∧ { blockFees with keyId := some keyId } = after :=
    by simpa using Except.ok.inj hresult
  exact ⟨data, data', keyId, derivation, hread, hadd, rfl, rfl⟩

theorem advance_coinbase (body : Except Exn (Option BlockFees)) (attempt : Attempt) (l : Stage env)
    (s : ServerState) :
    Advance services (.receiveCoinbase body attempt) s.world.file l
      (@answer env
        (CoinbaseHandler.handle services.config services.kc attempt body s)).1
      (@answer env
        (CoinbaseHandler.handle services.config services.kc attempt body s)).2.world.file := by
  rcases body with e | _ | blockFees
  · exact .kept (keeps_refl _) (.inl rfl)
  · exact .kept (keeps_refl _) (.inl rfl)
  have hkeeps := ReceiverLemmas.keeps_receiveCoinbase services.config services.kc attempt blockFees
    s.world
  simp only [answer, CoinbaseHandler.handle, CoinbaseHandler.buildCoinbase]
  rw [WalletM.exec_bind]
  rcases hreward : (WalletReceiver.receiveCoinbase services.config services.kc attempt
    blockFees).exec s.world with ⟨e | ⟨out, kern, after⟩, w⟩
  · rw [hreward] at hkeeps
    exact .kept hkeeps (.inl rfl)
  · obtain ⟨data, data', keyId, derivation, hread, hadd, hkey, hfile⟩ :=
      keyId_of_receiveCoinbase hreward
    simp only [WalletM.exec_pure, hkey]
    rw [hfile]
    exact .recorded hread (addOutput_of_addCoinbase hadd) rfl ⟨rfl, rfl⟩

/-- Every step of a request is one of these. -/
theorem advance_move (request : Request) (l : Stage env) (s : ServerState) :
    Advance services request s.world.file l (move services request l s).1
      (move services request l s).2.world.file := by
  have hsame : ∀ l : Stage env, Advance services request s.world.file l l s.world.file :=
    fun l => .kept (keeps_refl _) (.inr ⟨rfl, fun _ h => h⟩)
  cases request with
  | info script =>
    cases l with
    | arrived => exact advance_query services _ _ _ s
    | queried snapshot answers => exact advance_applyAnswers services _ _ _ _ _ s
    | refreshed result => exact advance_report services _ script result _ s
    | sending | credited | posted | answered => exact hsame _
  | send script =>
    cases l with
    | arrived => exact advance_query services _ _ _ s
    | queried snapshot answers => exact advance_applyAnswers services _ _ _ _ _ s
    | refreshed result =>
      simp only [move]
      cases script.tip with
      | error e => exact .kept (keeps_refl _) (.inl rfl)
      | ok height => exact .kept (keeps_refl _) (.inl rfl)
    | sending height phase => exact advance_send services _ script height phase s
    | credited | posted | answered => exact hsame _
  | receiveTransaction body attempt push =>
    cases l with
    | arrived =>
      rcases body with e | _ | partialTx
      · exact .kept (keeps_refl _) (.inl rfl)
      · exact .kept (keeps_refl _) (.inl rfl)
      · exact advance_credit services _ attempt partialTx _ s
    | credited credit =>
      simp only [move, post]
      cases complete services credit with
      | error e => exact .kept (keeps_refl _) (.inr ⟨rfl, fun _ h => h⟩)
      | ok finalTx => exact .kept (keeps_refl _) (.inr ⟨rfl, fun _ h => h⟩)
    | posted credit =>
      simp only [move, acknowledge]
      rcases push.result with e | ⟨⟩
      · exact .kept (keeps_refl _) (.inr ⟨rfl, fun _ h => h⟩)
      · exact .kept (keeps_refl _) (.inr ⟨rfl, fun _ h => h⟩)
    | queried | refreshed | sending | answered => exact hsame _
  | receiveCoinbase body attempt =>
    cases l with
    | arrived => exact advance_coinbase services body attempt _ s
    | queried | refreshed | sending | credited | posted | answered => exact hsame _

end Advance

/-! ## The keys of the requests -/

/-- What a request answers for is on record. -/
def OnRecord (services : Services env) (request : Request) (s : ServerState) (l : Stage env) : Prop :=
  ∀ k, l.key? = some k → Recorded s.world.file k (Records services request l)

theorem recorded_mono {file : WalletFile} {k : String} {Q Q' : OutputData → Prop}
    (hmono : ∀ r, Q r → Q' r) (h : Recorded file k Q) : Recorded file k Q' := by
  intro data hdata
  obtain ⟨r, hr, hq⟩ := h data hdata
  exact ⟨r, hr, hmono r hq⟩

/-- A record that was added is there. -/
theorem recorded_addOutput {data data' : WalletData} {o : OutputData} {Q : OutputData → Prop}
    (hadd : data.addOutput o = .ok data') (hq : Q o) : Recorded (.stored data') o.keyId Q := by
  intro d hd
  obtain rfl := Except.ok.inj hd
  exact ⟨o, (lookup_addOutput hadd _).trans (if_pos rfl), hq⟩

/-- The key of a new record is no key on record. -/
theorem ne_of_addOutput {file : WalletFile} {data data' : WalletData} {o : OutputData} {k : String}
    {Q : OutputData → Prop} (hread : file.readOrCreate = .ok data)
    (hadd : data.addOutput o = .ok data') (h : Recorded file k Q) : k ≠ o.keyId := by
  rintro rfl
  obtain ⟨r, hr, -⟩ := h data hread
  have hnone := (Dictionary.add_eq_some_iff.mp (addOutput_eq_ok_iff.mp hadd)).1
  rw [hnone] at hr
  cases hr

section Keys

variable {services : Services env} {request : Request} {file file' : WalletFile}

/-- The change of a send is on record after each of its steps. -/
theorem Transition.recorded_self {phase phase' : Phase} (h : Transition file phase phase' file')
    (hself : ∀ key, phase.changeKey = some key → Recorded file key.hexValue fun _ => True)
    {key : Identifier} (hkey : phase'.changeKey = some key) :
    Recorded file' key.hexValue fun _ => True := by
  have hstable : Stable fun _ => True := fun _ _ _ h => h
  cases h with
  | built hread hid hadd =>
    obtain rfl := Option.some.inj hkey
    rw [← hid]
    exact recorded_addOutput hadd trivial
  | delivered | undelivered | stayed => exact hself key hkey
  | notLocked hkeeps => exact recorded_of_keeps hstable hkeeps (hself key hkey)
  | selected | gaveUp | lockedFirst | lockedLast | rolledBack | printed => cases hkey

/-- The key of a send's change is the one it had, or is new. -/
theorem Transition.changeKey_new {phase phase' : Phase} (h : Transition file phase phase' file')
    {key : Identifier} (hkey : phase'.changeKey = some key) :
    phase.changeKey = some key ∨ ∀ k Q, Recorded file k Q → k ≠ key.hexValue := by
  cases h with
  | built hread hid hadd =>
    obtain rfl := Option.some.inj hkey
    exact .inr fun k Q hk => hid ▸ ne_of_addOutput hread hadd hk
  | delivered | undelivered | notLocked | stayed => exact .inl hkey
  | selected | gaveUp | lockedFirst | lockedLast | rolledBack | printed => cases hkey

/-- A step keeps what its own request answers for. -/
theorem onRecord_advance {s s' : ServerState} {l l' : Stage env}
    (h : Advance services request s.world.file l l' s'.world.file)
    (hself : OnRecord services request s l) : OnRecord services request s' l' := by
  intro k hk
  generalize s'.world.file = file' at h
  cases h with
  | kept hkeeps hkey =>
    rcases hkey with hnone | ⟨hsame, hmono⟩
    · rw [hnone] at hk
      cases hk
    · have hold := hself k (hsame.symm.trans hk)
      exact recorded_mono hmono (recorded_of_keeps (stable_records services request l) hkeeps hold)
  | @sent height phase phase' file' htransition =>
    have htrue : ∀ p : Phase, Records services request (.sending height p) = fun _ => True := by
      intro p
      cases request <;> rfl
    obtain ⟨key, hkey, rfl⟩ := Option.map_eq_some_iff.mp hk
    rw [htrue]
    refine Transition.recorded_self htransition (fun key' hkey' => ?_) hkey
    have hold := hself key'.hexValue (Option.map_eq_some_iff.mpr ⟨key', hkey', rfl⟩)
    rwa [htrue] at hold
  | recorded hread hadd hkey hrec =>
    obtain rfl := Option.some.inj (hkey.symm.trans hk)
    exact recorded_addOutput hadd hrec

/-- A step keeps what other requests answer for under other keys. -/
theorem onRecord_of_ne {s s' : ServerState} {l l' m : Stage env} {other : Request}
    (h : Advance services request s.world.file l l' s'.world.file)
    (hne : ∀ k, l.key? = some k → m.key? ≠ some k)
    (hm : OnRecord services other s m) : OnRecord services other s' m := by
  intro k hk
  have hold := hm k hk
  have hstable := stable_records services other m
  generalize s'.world.file = file' at h
  cases h with
  | kept hkeeps => exact recorded_of_keeps hstable hkeeps hold
  | sent htransition =>
    refine htransition.recorded hstable (fun key hkey heq => ?_) hold
    exact hne k (Option.map_eq_some_iff.mpr ⟨key, hkey, heq.symm⟩) hk
  | recorded hread hadd =>
    have hkeeps := keeps_stored hread ⟨keeps_addOutput hadd, wellKeyed_addOutput hadd⟩
    exact recorded_of_keeps hstable hkeeps hold

/-- The key of a request is the one it had, or no other request has it. -/
theorem key_new_of_advance {s : ServerState} {l l' : Stage env}
    (h : Advance services request s.world.file l l' file') {k : String} (hk : l'.key? = some k) :
    l.key? = some k ∨
      ∀ other m, OnRecord services other s m → m.key? ≠ some k := by
  cases h with
  | kept _ hkey =>
    rcases hkey with hnone | ⟨hsame, -⟩
    · rw [hnone] at hk
      cases hk
    · exact .inl (hsame.symm.trans hk)
  | sent htransition =>
    obtain ⟨key, hkey, rfl⟩ := Option.map_eq_some_iff.mp hk
    rcases Transition.changeKey_new htransition hkey with hold | hnew
    · exact .inl (Option.map_eq_some_iff.mpr ⟨key, hold, rfl⟩)
    · exact .inr fun other m hm hmk => hnew _ _ (hm _ hmk) rfl
  | recorded hread hadd hkey =>
    obtain rfl := Option.some.inj (hkey.symm.trans hk)
    exact .inr fun other m hm hmk => ne_of_addOutput hread hadd (hm _ hmk) rfl

end Keys

/-! ## What an answer says -/

/-- The payment is the one of the request. -/
def Credit.Of (request : Request) (credit : Credit env) : Prop :=
  ∃ partialTx attempt push, request = .receiveTransaction (.ok (some partialTx)) attempt push ∧
    readPartialTx env partialTx = .ok (credit.amount, credit.blinding, credit.tx)

/-- What the stage of a request says about it. -/
def Stage.Fits (services : Services env) (request : Request) : Stage env → Prop
  | .credited credit => credit.Of request
  | .posted credit => credit.Of request ∧ ∃ finalTx, complete services credit = .ok finalTx
  | .answered (some credit) response =>
    credit.Of request ∧
      ∀ r, response = .ok r → r = .ok ∧ ∃ finalTx, complete services credit = .ok finalTx
  | .answered none (.ok .ok) => ∃ script, request = .send script
  | .answered none (.ok (.json _)) =>
    ∃ blockFees attempt, request = .receiveCoinbase (.ok (some blockFees)) attempt
  | _ => True

theorem fits_send (services : Services env) (script : SendScript) (height : UInt64) (phase : Phase)
    (s : ServerState) : (send services script height phase s).1.Fits services (.send script) := by
  unfold send
  rcases phase.result with _ | (e | ⟨⟩)
  · trivial
  · trivial
  · exact ⟨script, rfl⟩

theorem fits_query (services : Services env) (request : Request) (script : Checker.RefreshScript)
    (s : ServerState) : (query services script s).1.Fits services request := by
  unfold query
  rcases (readWallet script.readFault (Checker.snapshot services.kc)).exec s.world
    with ⟨e | snapshot, w⟩
  · trivial
  cases script.answer with
  | unreachable | failureStatus | malformed => trivial
  | outputs outputs =>
    simp only
    cases Checker.apiOutputs outputs with
    | error e => trivial
    | ok answers => trivial

theorem fits_credit (services : Services env) (attempt : Attempt) (push : Push)
    (partialTx : PartialTx) (s : ServerState) : (credit services attempt partialTx s).1.Fits services
      (.receiveTransaction (.ok (some partialTx)) attempt push) := by
  unfold credit
  rcases hread : readPartialTx env partialTx with e | ⟨amount, blinding, tx⟩
  · trivial
  simp only
  split
  · trivial
  rcases (withWallet services.config attempt (WalletReceiver.addReceived services.kc
    (amount - WalletReceiver.recipientFee tx))).exec s.world with ⟨e | ⟨keyId, derivation⟩, w⟩
  · trivial
  · exact ⟨partialTx, attempt, push, rfl, hread⟩

/-- A step of a request says something true of it. -/
theorem fits_move (services : Services env) (request : Request) (l : Stage env) (s : ServerState)
    (h : l.Fits services request) : (move services request l s).1.Fits services request := by
  cases request with
  | info script =>
    cases l with
    | arrived => exact fits_query services _ _ s
    | queried snapshot answers =>
      simp only [move, applyAnswers]
      rcases (withWallet services.config script.refresh.attempt
        (Checker.applied snapshot answers)).exec s.world with ⟨e | ⟨⟩, w⟩ <;> trivial
    | refreshed result =>
      simp only [move, report]
      rcases (readWallet script.readFault fun walletData =>
        .ok (Info.summary services.kc.rootKeyId script.tip walletData)).exec s.world
          with ⟨e | text, w⟩ <;> trivial
    | sending | credited | posted | answered => exact h
  | send script =>
    cases l with
    | arrived => exact fits_query services _ _ s
    | queried snapshot answers =>
      simp only [move, applyAnswers]
      rcases (withWallet services.config script.refresh.attempt
        (Checker.applied snapshot answers)).exec s.world with ⟨e | ⟨⟩, w⟩ <;> trivial
    | refreshed result =>
      simp only [move]
      cases script.tip with
      | error e => trivial
      | ok height => trivial
    | sending height phase => exact fits_send services script height phase s
    | credited | posted | answered => exact h
  | receiveTransaction body attempt push =>
    cases l with
    | arrived =>
      rcases body with e | _ | partialTx
      · trivial
      · trivial
      · exact fits_credit services attempt push partialTx s
    | credited credit =>
      simp only [move, post]
      cases hbuilt : complete services credit with
      | error e =>
        refine ⟨h, fun _ he => ?_⟩
        cases he
      | ok finalTx => exact ⟨h, finalTx, hbuilt⟩
    | posted credit =>
      simp only [move, acknowledge]
      rcases push.result with e | ⟨⟩
      · refine ⟨h.1, fun _ he => ?_⟩
        cases he
      · exact ⟨h.1, fun r hr => ⟨(Except.ok.inj hr).symm, h.2⟩⟩
    | queried | refreshed | sending | answered => exact h
  | receiveCoinbase body attempt =>
    cases l with
    | arrived =>
      rcases body with e | _ | blockFees
      · trivial
      · trivial
      simp only [move, answer, CoinbaseHandler.handle]
      rcases (CoinbaseHandler.buildCoinbase services.config services.kc attempt
        blockFees).exec s.world with ⟨e | cb, w⟩
      · trivial
      · exact ⟨blockFees, attempt, rfl⟩
    | queried | refreshed | sending | credited | posted | answered => exact h

/-! ## Runs -/

/-- The server stops and starts again: a handle of the lock file is gone. -/
inductive Restarted : ServerState → ServerState → Prop
  | mk (s : ServerState) : Restarted s { s with world := { s.world with lockHeld := false } }

/-- The requests of a server, each at its own pace. -/
def Serves {ι : Type*} [DecidableEq ι] (services : Services env) (requests : ι → Request) :
    Pool ι ServerState (Stage env) → Option ι → Pool ι ServerState (Stage env) → Prop :=
  Pool.Step (Pool.Moves (fun i => move services (requests i)) fun _ _ => True) Restarted

/-- A request is answered with a success that brings an output into the wallet. -/
def Acknowledged : Request → Stage env → Prop
  | .receiveTransaction _ _ _, stage => stage.response? = some (.ok .ok)
  | .receiveCoinbase _ _, stage => ∃ cb, stage.response? = some (.ok (.json cb))
  | _, _ => False

/-- The record that a success stands for. -/
def Promised (services : Services env) : Request → OutputData → Prop
  | .receiveTransaction (.ok (some partialTx)) _ _, r =>
    r.rootKeyId = services.kc.rootKeyId.hexValue ∧
      ∃ amount blinding tx, readPartialTx env partialTx = .ok (amount, blinding, tx) ∧
        r.value = amount - WalletReceiver.recipientFee tx
  | .receiveCoinbase (.ok (some blockFees)) _, r => Rewarded services blockFees r
  | _, _ => False

section Runs

variable {ι : Type*} [DecidableEq ι] {services : Services env} {requests : ι → Request}
  {p q : Pool ι ServerState (Stage env)} {history : List (Option ι)}

theorem fits_of_run (hstart : ∀ i, p.locals i = .arrived)
    (hrun : Run (Serves services requests) p history q) (i : ι) :
    (q.locals i).Fits services (requests i) := by
  refine hrun.invariant (P := fun r => ∀ i, (r.locals i).Fits services (requests i)) ?_ ?_ i
  · intro r who r' hr hstep
    cases hstep with
    | @own i _ l s hown =>
      have hfits := fits_move services (requests i) (r.locals i) r.shared (hr i)
      rw [show move services (requests i) (r.locals i) r.shared = (l, s) from hown.2] at hfits
      exact Pool.forall_locals_put (P := fun i l => Stage.Fits services (requests i) l) hfits
        fun j _ => hr j
    | outer => exact hr
  · intro i
    rw [hstart i]
    trivial

/-- What the requests answer for is on record, under keys of their own. -/
theorem owned_of_run (hstart : ∀ i, p.locals i = .arrived)
    (hrun : Run (Serves services requests) p history q) :
    Pool.Owned Stage.key? (fun i s l => OnRecord services (requests i) s l) q := by
  refine Pool.owned_of_run (fun i r l s _ hown => ?_) (fun s s' i l houter h => ?_) hrun ?_
  · have h := advance_move services (requests i) (r.locals i) r.shared
    rw [show move services (requests i) (r.locals i) r.shared = (l, s) from hown.2] at h
    refine ⟨onRecord_advance h, fun j _ hne hj => onRecord_of_ne h hne hj, fun k hk => ?_⟩
    rcases key_new_of_advance h hk with hold | hnew
    · exact .inl hold
    · exact .inr fun j hj => hnew (requests j) _ hj
  · obtain ⟨⟩ := houter
    exact h
  · refine ⟨fun i k hk => ?_, fun i j _ k hk => ?_⟩
    · rw [hstart i] at hk
      cases hk
    · rw [hstart i] at hk
      cases hk

/-- A request with a success has a key, and what it answers for there is what was promised. -/
theorem key_of_acknowledged {request : Request} {stage : Stage env}
    (hfits : stage.Fits services request) (hack : Acknowledged request stage) :
    ∃ k, stage.key? = some k ∧
      ∀ r, Records services request stage r → Promised services request r := by
  cases stage with
  | arrived | queried | refreshed | sending | credited | posted =>
    cases request with
    | info | send => cases hack
    | receiveTransaction => cases hack
    | receiveCoinbase =>
      obtain ⟨cb, hcb⟩ := hack
      cases hcb
  | answered credit response =>
    cases credit with
    | some credit =>
      obtain ⟨⟨partialTx, attempt, push, rfl, hread⟩, -⟩ := hfits
      exact ⟨_, rfl, fun r hr => ⟨hr.1, _, _, _, hread, hr.2⟩⟩
    | none =>
      cases request with
      | info | send => cases hack
      | receiveTransaction body attempt push =>
        obtain rfl : response = .ok .ok := Option.some.inj hack
        obtain ⟨script, hscript⟩ := hfits
        cases hscript
      | receiveCoinbase body attempt =>
        obtain ⟨cb, hcb⟩ := hack
        obtain rfl : response = .ok (.json cb) := Option.some.inj hcb
        obtain ⟨blockFees, attempt', hrequest⟩ := hfits
        cases hrequest
        exact ⟨_, rfl, fun r hr => hr⟩

/-- Every payment and every reward that was acknowledged has its record, under a key that no other
one has; the key of a reward is the one it was answered with. -/
theorem received_kept (hstart : ∀ i, p.locals i = .arrived)
    (hrun : Run (Serves services requests) p history q) :
    ∃ key : ι → String,
      (∀ i, Acknowledged (requests i) (q.locals i) →
        Recorded q.shared.world.file (key i) (Promised services (requests i))) ∧
      (∀ i j, i ≠ j → Acknowledged (requests i) (q.locals i) →
        Acknowledged (requests j) (q.locals j) → key i ≠ key j) ∧
      ∀ i cb, (q.locals i).response? = some (.ok (.json cb)) → key i = cb.keyId := by
  have howned := owned_of_run hstart hrun
  have hfits := fits_of_run hstart hrun
  obtain ⟨key, hkey⟩ : ∃ key : ι → String, ∀ i k, (q.locals i).key? = some k → key i = k :=
    ⟨fun i => ((q.locals i).key?).getD "", fun i k hk => by simp [hk]⟩
  refine ⟨key, fun i hack => ?_, fun i j hij hi hj => ?_, fun i cb hcb => hkey i _ ?_⟩
  · obtain ⟨k, hk, hpromised⟩ := key_of_acknowledged (hfits i) hack
    rw [hkey i k hk]
    exact recorded_mono hpromised (howned.has i k hk)
  · obtain ⟨k, hk, -⟩ := key_of_acknowledged (hfits i) hi
    obtain ⟨k', hk', -⟩ := key_of_acknowledged (hfits j) hj
    rw [hkey i k hk, hkey j k' hk']
    rintro rfl
    exact howned.distinct i j hij k hk hk'
  · have hfit := hfits i
    generalize q.locals i = stage at hcb hfit
    cases stage with
    | arrived | queried | refreshed | sending | credited | posted => cases hcb
    | answered credit response =>
      obtain rfl : response = .ok (.json cb) := Option.some.inj hcb
      cases credit with
      | none => rfl
      | some credit =>
        obtain ⟨hjson, -⟩ := hfit.2 _ rfl
        cases hjson

end Runs

/-! ### Over pairs -/

/-- The wallet a payment comes to. -/
def pairServices : Services Pairs.env := ⟨⟨""⟩, Exchange.pairReceiver⟩

/-- The transaction of a send of nine million. -/
def pairSent : Except Exn (Transaction × BlindingFactor Pairs.env.secp) := do
  let (parts, _) ← ((inputsAndChange pairCall.config pairCall.kc .calm [pairCoin 1 10000000]
    9000000).exec pairWorld).1
  Build.transaction (parts ++ [Build.withLockHeight 3]) pairCall.kc

/-- What is sent of it. -/
def pairPartialTx : PartialTx :=
  match pairSent with
  | .ok (tx, blind) => buildPartialTx Pairs.env 9000000 blind tx
  | .error _ => ⟨0, "", ""⟩

/-- A payment and a reward. -/
def pairRequests : Bool → Request
  | false => .receiveTransaction (.ok (some pairPartialTx)) .calm .success
  | true => .receiveCoinbase (.ok (some ⟨6, 1, none⟩)) .calm

/-- Both have arrived at an empty wallet. -/
def pairArrived : Pool Bool ServerState (Stage Pairs.env) :=
  ⟨⟨⟨.absent, false, [], []⟩, []⟩, fun _ => .arrived⟩

/-- The reward is recorded before the payment. -/
def pairServed : Pool Bool ServerState (Stage Pairs.env) :=
  Pool.schedule (fun i => move pairServices (pairRequests i)) pairArrived [true, false, false, false]

theorem run_pairServed :
    Run (Serves pairServices pairRequests) pairArrived ([true, false, false, false].map some)
      pairServed :=
  Pool.run_schedule (by simp [Pool.Allowed])

/-- A reward that keeps its record while a payment is received. -/
theorem received_kept_pairs :
    (∃ cb, (pairServed.locals true).response? = some (.ok (.json cb))) ∧
    ∃ key : Bool → String,
      (∀ i, Acknowledged (pairRequests i) (pairServed.locals i) →
        Recorded pairServed.shared.world.file (key i) (Promised pairServices (pairRequests i))) ∧
      (∀ i j, i ≠ j → Acknowledged (pairRequests i) (pairServed.locals i) →
        Acknowledged (pairRequests j) (pairServed.locals j) → key i ≠ key j) ∧
      ∀ i cb, (pairServed.locals i).response? = some (.ok (.json cb)) → key i = cb.keyId := by
  refine ⟨?_, received_kept (fun _ => rfl) run_pairServed⟩
  have hjson : ((pairServed.locals true).response?.bind fun r =>
      match r with
      | .ok (.json cb) => some cb
      | _ => none).isSome = true := by decide +kernel
  obtain ⟨cb, hcb⟩ := Option.isSome_iff_exists.mp hjson
  obtain ⟨r, hr, hmatch⟩ := Option.bind_eq_some_iff.mp hcb
  refine ⟨cb, hr.trans ?_⟩
  match r, hmatch with
  | .ok (.json _), rfl => rfl

end ServerController

end GrinDotnet
