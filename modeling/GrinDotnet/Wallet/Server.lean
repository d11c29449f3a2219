import GrinDotnet.Wallet.Info
import GrinDotnet.Wallet.Rejection
import GrinDotnet.Wallet.SendSteps

/-!
# The server of the wallet

`ServerController` and its handlers: the report, the send, and the two requests that bring outputs
into the wallet. Every route works on the one wallet file, and a received payment is also posted to
the node.

Results:
1. `alone_handle`: taken one after the other, the steps of a request are its handler.
-/

namespace GrinDotnet

open Outcome

variable {env : Env}

/-- `TxWrapper`: what is posted to the pool of the node. -/
structure TxWrapper where
  txHex : String
deriving DecidableEq

/-- `CbData`: the answer to a request for a coinbase. -/
structure CbData where
  output : String
  kernel : String
  keyId : String
deriving DecidableEq

/-- What the requests of a server change: the world of its wallet, and what was posted. -/
structure ServerState where
  world : World
  posted : List TxWrapper

/-- What comes of a post to the node. -/
inductive Push
  | success
  /-- The node answers with another status code. -/
  | status (code : String)
  | raised (e : Exn)

/-- `receive_json_tx` after its post. -/
def Push.result : Push → Except Exn Unit
  | .success => .ok ()
  | .status code => .error (.wallet .node (some code) [])
  | .raised e => .error e

/-- `IActionResult`, as the actions of the controller make it. -/
inductive Response
  | content (text : List String)
  | ok
  | badRequest
  | json (data : CbData)
deriving DecidableEq

namespace WalletReceiver

/-- What `receive_json_tx` posts of a transaction. -/
def txWrapper (env : Env) (tx : Transaction) : TxWrapper := ⟨toHex (tx.serVec env)⟩

/-- `receive_json_tx` behind `receive_transaction`. -/
def pushTx (env : Env) (push : Push) (posted : List TxWrapper) :
    Except Exn Transaction × World → Except Exn Unit × ServerState
  | (.error e, w) => (.error e, ⟨w, posted⟩)
  | (.ok finalTx, w) => (push.result, ⟨w, posted ++ [txWrapper env finalTx]⟩)

/-- `WalletReceiver.receive_json_tx`. -/
def receiveJsonTx (config : WalletConfig) (kc : Keychain env) (attempt : Attempt) (push : Push)
    (partialTx : PartialTx) (s : ServerState) : Except Exn Unit × ServerState :=
  match readPartialTx env partialTx with
  | .error e => (.error e, s)
  | .ok (amount, blinding, tx) =>
    pushTx env push s.posted
      ((receiveTransaction config kc attempt amount blinding tx).exec s.world)

/-- `OkResult`, unless an exception is in flight. -/
def okResult : Except Exn Unit × ServerState → Except Exn Response × ServerState
  | (.error e, s) => (.error e, s)
  | (.ok (), s) => (.ok .ok, s)

/-- `WalletReceiver.Handle`, of what the body deserializes to: a partial transaction, nothing for
`null`, or an exception. -/
def handle (config : WalletConfig) (kc : Keychain env) (attempt : Attempt) (push : Push)
    (body : Except Exn (Option PartialTx)) (s : ServerState) : Except Exn Response × ServerState :=
  match body with
  | .error e => (.error e, s)
  | .ok none => (.ok .badRequest, s)
  | .ok (some partialTx) => okResult (receiveJsonTx config kc attempt push partialTx s)

theorem receiveJsonTx_of_read {config : WalletConfig} {kc : Keychain env} {attempt : Attempt}
    {push : Push} {partialTx : PartialTx} {s : ServerState} {amount : UInt64}
    {blinding : BlindingFactor env.secp} {tx : Transaction}
    (hread : readPartialTx env partialTx = .ok (amount, blinding, tx)) :
    receiveJsonTx config kc attempt push partialTx s = pushTx env push s.posted
      ((receiveTransaction config kc attempt amount blinding tx).exec s.world) := by
  simp only [receiveJsonTx, hread]

theorem receiveJsonTx_of_error {config : WalletConfig} {kc : Keychain env} {attempt : Attempt}
    {push : Push} {partialTx : PartialTx} {s : ServerState} {e : Exn}
    (hread : readPartialTx env partialTx = .error e) :
    receiveJsonTx config kc attempt push partialTx s = (.error e, s) := by
  simp only [receiveJsonTx, hread]

end WalletReceiver

namespace CoinbaseHandler

open WalletReceiver

/-- `CoinbaseHandler.build_coinbase`. -/
def buildCoinbase (config : WalletConfig) (kc : Keychain env) (attempt : Attempt)
    (blockFees : BlockFees) : WalletM CbData := do
  let (out, kern, blockFees) ← receiveCoinbase config kc attempt blockFees
  let keyIdBin := match blockFees.keyId with
    | some keyId => keyId.value
    | none => List.replicate Identifier.identifierSize 0
  return ⟨toHex (out.write .full), toHex kern.write, toHex keyIdBin⟩

/-- `CoinbaseHandler.Handle`; the handler of a body that is `null` raises. -/
def handle (config : WalletConfig) (kc : Keychain env) (attempt : Attempt)
    (body : Except Exn (Option BlockFees)) (s : ServerState) : Except Exn Response × ServerState :=
  match body with
  | .error e => (.error e, s)
  | .ok none => (.error .nullReference, s)
  | .ok (some blockFees) =>
    match (buildCoinbase config kc attempt blockFees).exec s.world with
    | (.error e, w) => (.error e, { s with world := w })
    | (.ok cb, w) => (.ok (.json cb), { s with world := w })

end CoinbaseHandler

namespace ServerController

/-- The services every request is given: one configuration and one keychain. -/
structure Services (env : Env) where
  config : WalletConfig
  kc : Keychain env

/-- A request on one of the routes, with what its surroundings do to it. -/
inductive Request
  | info (script : Info.InfoScript)
  | send (script : Sender.SendScript)
  | receiveTransaction (body : Except Exn (Option PartialTx)) (attempt : Attempt) (push : Push)
  | receiveCoinbase (body : Except Exn (Option BlockFees)) (attempt : Attempt)

/-- The arguments `ServerController.Send` always gives. -/
def sendArgs : Sender.SendArgs where
  amount := 3000000000
  minimumConfirmations := 2
  dest := "http://localhost:13415"
  maxOutputs := 500
  selectionStrategy := false

/-- An action of the controller. -/
def handle (services : Services env) (s : ServerState) : Request → Except Exn Response × ServerState
  | .info script =>
    match (Info.buildInfo script services.config services.kc).exec s.world with
    | (.error e, w) => (.error e, { s with world := w })
    | (.ok text, w) => (.ok (.content text), { s with world := w })
  | .send script =>
    match (Sender.issueSendTx script services.config services.kc sendArgs).exec s.world with
    | (.error e, w) => (.error e, { s with world := w })
    | (.ok (), w) => (.ok .ok, { s with world := w })
  | .receiveTransaction body attempt push =>
    WalletReceiver.handle services.config services.kc attempt push body s
  | .receiveCoinbase body attempt =>
    CoinbaseHandler.handle services.config services.kc attempt body s

/-! ## Step by step -/

/-- A payment whose record is on disk. -/
structure Credit (env : Env) where
  amount : UInt64
  blinding : BlindingFactor env.secp
  tx : Transaction
  keyId : Identifier

/-- Where a request stands. -/
inductive Stage (env : Env)
  | arrived
  /-- The node has answered for the outputs of a snapshot. -/
  | queried (snapshot : Checker.Snapshot) (answers : Dictionary String ApiOutput)
  /-- The refresh is over. -/
  | refreshed (result : Bool)
  | sending (height : UInt64) (phase : Sender.Phase)
  | credited (credit : Credit env)
  /-- The payment was posted. -/
  | posted (credit : Credit env)
  /-- The request has its answer; a payment it recorded is remembered with it. -/
  | answered (credit : Option (Credit env)) (response : Except Exn Response)

namespace Stage

/-- The answer, once there is one. -/
def response? : Stage env → Option (Except Exn Response)
  | answered _ response => some response
  | _ => none

/-- The payment a request has recorded. -/
def credit? : Stage env → Option (Credit env)
  | credited credit => some credit
  | posted credit => some credit
  | answered credit _ => credit
  | _ => none

end Stage

/-- The read of a refresh, and the query that follows it. -/
def query (services : Services env) (script : Checker.RefreshScript) (s : ServerState) :
    Stage env × ServerState :=
  match (readWallet script.readFault (Checker.snapshot services.kc)).exec s.world with
  | (.error e, w) => (.answered none (.error e), { s with world := w })
  | (.ok snapshot, w) =>
    match script.answer with
    | .unreachable => (.refreshed false, { s with world := w })
    | .failureStatus => (.refreshed false, { s with world := w })
    | .malformed e => (.answered none (.error e), { s with world := w })
    | .outputs outputs =>
      match Checker.apiOutputs outputs with
      | .error e => (.answered none (.error e), { s with world := w })
      | .ok answers => (.queried snapshot answers, { s with world := w })

/-- The write of a refresh. -/
def applyAnswers (services : Services env) (attempt : Attempt) (snapshot : Checker.Snapshot)
    (answers : Dictionary String ApiOutput) (s : ServerState) : Stage env × ServerState :=
  match (withWallet services.config attempt (Checker.applied snapshot answers)).exec s.world with
  | (.error e, w) => (.answered none (.error e), { s with world := w })
  | (.ok (), w) => (.refreshed true, { s with world := w })

/-- The report on the refreshed wallet. -/
def report (services : Services env) (script : Info.InfoScript) (result : Bool) (s : ServerState) :
    Stage env × ServerState :=
  match (readWallet script.readFault fun walletData =>
      .ok (Info.summary services.kc.rootKeyId script.tip walletData)).exec s.world with
  | (.error e, w) => (.answered none (.error e), { s with world := w })
  | (.ok text, w) =>
    (.answered none (.ok (.content (if result then text else text ++ Info.warning))),
      { s with world := w })

/-- The send of a request at a height. -/
def call (services : Services env) (script : Sender.SendScript) (height : UInt64) :
    Sender.Call env :=
  ⟨services.config, services.kc, sendArgs, height, script⟩

/-- The next step of a send that a request makes. -/
def send (services : Services env) (script : Sender.SendScript) (height : UInt64)
    (phase : Sender.Phase) (s : ServerState) : Stage env × ServerState :=
  match phase.result with
  | some (.ok ()) => (.answered none (.ok .ok), s)
  | some (.error e) => (.answered none (.error e), s)
  | none =>
    let (phase', w) := (call services script height).move phase s.world
    (.sending height phase', { s with world := w })

/-- The record of a payment, behind the checks that come before it. -/
def credit (services : Services env) (attempt : Attempt) (partialTx : PartialTx) (s : ServerState) :
    Stage env × ServerState :=
  match readPartialTx env partialTx with
  | .error e => (.answered none (.error e), s)
  | .ok (amount, blinding, tx) =>
    let fee := WalletReceiver.recipientFee tx
    if fee ≠ tx.fee then
      (.answered none
        (.error (.wallet .feeDispute none [("sender_fee", tx.fee), ("recipient_fee", fee)])), s)
    else
      match (withWallet services.config attempt
        (WalletReceiver.addReceived services.kc (amount - fee))).exec s.world with
      | (.error e, w) => (.answered none (.error e), { s with world := w })
      | (.ok (keyId, _), w) => (.credited ⟨amount, blinding, tx, keyId⟩, { s with world := w })

/-- The transaction of a recorded payment. -/
def complete (services : Services env) (credit : Credit env) : Except Exn Transaction :=
  WalletReceiver.completePayment services.kc credit.amount credit.blinding credit.tx credit.keyId

/-- The completion of a recorded payment and its post. -/
def post (services : Services env) (credit : Credit env) (s : ServerState) :
    Stage env × ServerState :=
  match complete services credit with
  | .error e => (.answered (some credit) (.error e), s)
  | .ok finalTx =>
    (.posted credit, { s with posted := s.posted ++ [WalletReceiver.txWrapper env finalTx] })

/-- The answer to a payment that was posted. -/
def acknowledge (push : Push) (credit : Credit env) (s : ServerState) : Stage env × ServerState :=
  match push.result with
  | .error e => (.answered (some credit) (.error e), s)
  | .ok () => (.answered (some credit) (.ok .ok), s)

/-- A handler that is one step. -/
def answer (r : Except Exn Response × ServerState) : Stage env × ServerState :=
  (.answered none r.1, r.2)

/-- The next step of a request. -/
def move (services : Services env) : Request → Stage env → ServerState → Stage env × ServerState
  | .info script, .arrived, s => query services script.refresh s
  | .info script, .queried snapshot answers, s =>
    applyAnswers services script.refresh.attempt snapshot answers s
  | .info script, .refreshed result, s => report services script result s
  | .send script, .arrived, s => query services script.refresh s
  | .send script, .queried snapshot answers, s =>
    applyAnswers services script.refresh.attempt snapshot answers s
  | .send script, .refreshed _, s =>
    match script.tip with
    | .error e => (.answered none (.error e), s)
    | .ok height => (.sending height .ready, s)
  | .send script, .sending height phase, s => send services script height phase s
  | .receiveTransaction body attempt _, .arrived, s =>
    match body with
    | .error e => (.answered none (.error e), s)
    | .ok none => (.answered none (.ok .badRequest), s)
    | .ok (some partialTx) => credit services attempt partialTx s
  | .receiveTransaction _ _ _, .credited credit, s => post services credit s
  | .receiveTransaction _ _ push, .posted credit, s => acknowledge push credit s
  | .receiveCoinbase body attempt, .arrived, s =>
    answer (CoinbaseHandler.handle services.config services.kc attempt body s)
  | _, stage, s => (stage, s)

/-- A request alone: its next step. -/
def alone (services : Services env) (request : Request) (p : Stage env × ServerState) :
    Stage env × ServerState :=
  move services request p.1 p.2

section Alone

variable (services : Services env)

theorem alone_answered (request : Request) (n : ℕ) (credit : Option (Credit env))
    (response : Except Exn Response) (s : ServerState) :
    (alone services request)^[n] (.answered credit response, s) = (.answered credit response, s) := by
  refine Function.iterate_fixed ?_ n
  cases request <;> rfl

/-- A request that has its answer keeps it. -/
theorem alone_of_answered {request : Request} {n : ℕ} {p : Stage env × ServerState}
    {credit : Option (Credit env)} {response : Except Exn Response} {s : ServerState} {m : ℕ}
    (h : (alone services request)^[n] p = (.answered credit response, s)) (hm : n ≤ m) :
    (alone services request)^[m] p = (.answered credit response, s) := by
  obtain ⟨k, rfl⟩ := Nat.exists_eq_add_of_le' hm
  rw [Function.iterate_add_apply, h, alone_answered]

/-- The answer to a send that has ended. -/
def sent : Except Exn Unit → Except Exn Response
  | .ok () => .ok .ok
  | .error e => .error e

/-- A send ends as a request as it does by itself. -/
theorem alone_sending (script : Sender.SendScript) (height : UInt64) (n : ℕ) (phase : Sender.Phase)
    (s : ServerState) {phase' : Sender.Phase} {w : World} {result : Except Exn Unit}
    (hcall : (call services script height).alone^[n] (phase, s.world) = (phase', w))
    (hresult : phase'.result = some result) :
    (alone services (.send script))^[n + 1] (.sending height phase, s)
      = (.answered none (sent result), { s with world := w }) := by
  induction n generalizing phase s with
  | zero =>
    obtain ⟨rfl, rfl⟩ := Prod.mk.inj hcall
    show send services script height phase s = _
    unfold send
    rw [hresult]
    cases result <;> rfl
  | succ n ih =>
    rw [Function.iterate_succ_apply]
    cases hp : phase.result with
    | some r =>
      -- the phases with a result are the last ones
      have hfixed : (call services script height).alone (phase, s.world) = (phase, s.world) := by
        cases phase with
        | done | ended => rfl
        | ready | selected | built | delivered | failing | locked => cases hp
      rw [Function.iterate_fixed hfixed] at hcall
      obtain ⟨rfl, rfl⟩ := Prod.mk.inj hcall
      obtain rfl := Option.some.inj (hp.symm.trans hresult)
      have hstep : alone services (.send script) (.sending height phase, s)
          = (.answered none (sent r), s) := by
        show send services script height phase s = _
        unfold send
        rw [hp]
        cases r <;> rfl
      rw [hstep, alone_answered]
    | none =>
      have hstep : alone services (.send script) (.sending height phase, s)
          = (.sending height ((call services script height).alone (phase, s.world)).1,
            { s with world := ((call services script height).alone (phase, s.world)).2 }) := by
        show send services script height phase s = _
        unfold send
        rw [hp]
        rfl
      rw [hstep]
      rw [Function.iterate_succ_apply] at hcall
      exact ih _ _ hcall

/-- The stage and the state behind a refresh. -/
def afterRefresh (s : ServerState) : Except Exn Bool × World → Stage env × ServerState
  | (.error e, w) => (.answered none (.error e), { s with world := w })
  | (.ok result, w) => (.refreshed result, { s with world := w })

/-- The first steps of a request that refreshes are `refresh_outputs`. -/
theorem exists_afterRefresh (request : Request) {script : Checker.RefreshScript}
    (hquery : ∀ s, move services request .arrived s = query services script s)
    (happly : ∀ snapshot answers s, move services request (.queried snapshot answers) s
      = applyAnswers services script.attempt snapshot answers s) (s : ServerState) :
    ∃ n ≤ 2, (alone services request)^[n] (.arrived, s)
      = afterRefresh s
          ((Checker.refreshOutputs script services.config services.kc).exec s.world) := by
  have hfirst : alone services request (.arrived, s) = query services script s := hquery s
  have hsame := WorldLemmas.readWallet_snd script.readFault (Checker.snapshot services.kc) s.world
  simp only [Checker.refreshOutputs]
  rw [WalletM.exec_bind]
  unfold query at hfirst
  rcases hread : (readWallet script.readFault (Checker.snapshot services.kc)).exec s.world
    with ⟨e | snapshot, w⟩ <;> rw [hread] at hfirst hsame <;> obtain rfl : w = s.world := hsame
  · exact ⟨1, by decide, hfirst⟩
  cases hanswer : script.answer with
  | unreachable | failureStatus | malformed =>
    rw [hanswer] at hfirst
    exact ⟨1, by decide, hfirst⟩
  | outputs outputs =>
    rw [hanswer] at hfirst
    simp only at hfirst ⊢
    rw [WalletM.exec_bind, WalletM.exec_lift]
    cases hmap : Checker.apiOutputs outputs with
    | error e =>
      rw [hmap] at hfirst
      exact ⟨1, by decide, hfirst⟩
    | ok answers =>
      rw [hmap] at hfirst
      refine ⟨2, le_refl 2, ?_⟩
      have hsecond : alone services request (.queried snapshot answers, s)
          = applyAnswers services script.attempt snapshot answers s := happly snapshot answers s
      rw [Function.iterate_succ_apply, hfirst, Function.iterate_one, hsecond]
      simp only [applyAnswers]
      rw [WalletM.exec_bind]
      rcases (withWallet services.config script.attempt
        (Checker.applied snapshot answers)).exec s.world with ⟨e | ⟨⟩, w⟩ <;> rfl

theorem alone_info (script : Info.InfoScript) (s : ServerState) :
    ∃ n ≤ 3, (alone services (.info script))^[n] (.arrived, s)
      = (.answered none (handle services s (.info script)).1,
          (handle services s (.info script)).2) := by
  obtain ⟨n, hn, hrefresh⟩ :=
    exists_afterRefresh services (.info script) (fun _ => rfl) (fun _ _ _ => rfl) s
  simp only [handle, Info.buildInfo]
  rw [WalletM.exec_bind]
  rcases hrun : (Checker.refreshOutputs script.refresh services.config services.kc).exec s.world
    with ⟨e | result, w⟩ <;> rw [hrun] at hrefresh
  · exact ⟨n, le_trans hn (by decide), hrefresh⟩
  · refine ⟨n + 1, Nat.succ_le_succ hn, ?_⟩
    rw [Function.iterate_succ_apply', hrefresh]
    show report services script result { s with world := w } = _
    simp only [report]
    rw [WalletM.exec_bind]
    rcases (readWallet script.readFault fun walletData =>
      .ok (Info.summary services.kc.rootKeyId script.tip walletData)).exec w with ⟨e | text, w'⟩ <;> rfl

theorem alone_send (script : Sender.SendScript) (s : ServerState) :
    ∃ n ≤ 9, (alone services (.send script))^[n] (.arrived, s)
      = (.answered none (handle services s (.send script)).1,
          (handle services s (.send script)).2) := by
  obtain ⟨n, hn, hrefresh⟩ :=
    exists_afterRefresh services (.send script) (fun _ => rfl) (fun _ _ _ => rfl) s
  simp only [handle]
  rw [Sender.issueSendTx_eq, WalletM.exec_bind]
  rcases hrun : (Checker.refreshOutputs script.refresh services.config services.kc).exec s.world
    with ⟨e | result, w⟩ <;> rw [hrun] at hrefresh
  · exact ⟨n, le_trans hn (by decide), hrefresh⟩
  have htip : (alone services (.send script))^[n + 1] (.arrived, s)
      = match script.tip with
        | .error e => (.answered none (.error e), { s with world := w })
        | .ok height => (.sending height .ready, { s with world := w }) := by
    rw [Function.iterate_succ_apply', hrefresh]
    rfl
  simp only
  rw [WalletM.exec_bind, WalletM.exec_lift]
  cases hheight : script.tip with
  | error e =>
    rw [hheight] at htip
    exact ⟨n + 1, le_trans (Nat.succ_le_succ hn) (by decide), htip⟩
  | ok height =>
    rw [hheight] at htip
    obtain ⟨phase, hcall, hresult⟩ := (call services script height).alone_ready w
    have hsend := alone_sending services script height 5 .ready { s with world := w } hcall hresult
    refine ⟨6 + (n + 1), by omega, ?_⟩
    rw [Function.iterate_add_apply, htip, hsend]
    simp only [call]
    rcases (Sender.Call.run ⟨services.config, services.kc, sendArgs, height, script⟩).exec w
      with ⟨e | ⟨⟩, w'⟩ <;> rfl

/-- A partial transaction with a fee of its own is refused before anything is written. -/
theorem receiveTransaction_of_dispute {config : WalletConfig} {kc : Keychain env} {attempt : Attempt}
    {amount : UInt64} {blinding : BlindingFactor env.secp} {tx : Transaction} {w : World}
    (hfee : WalletReceiver.recipientFee tx ≠ tx.fee) :
    (WalletReceiver.receiveTransaction config kc attempt amount blinding tx).exec w
      = (.error (.wallet .feeDispute none
          [("sender_fee", tx.fee), ("recipient_fee", WalletReceiver.recipientFee tx)]), w) := by
  simp only [WalletReceiver.receiveTransaction]
  rw [if_pos hfee, WalletM.exec_throw]

theorem alone_receiveTransaction (body : Except Exn (Option PartialTx)) (attempt : Attempt)
    (push : Push) (s : ServerState) :
    ∃ n ≤ 3, ∃ credit, (alone services (.receiveTransaction body attempt push))^[n] (.arrived, s)
      = (.answered credit (handle services s (.receiveTransaction body attempt push)).1,
          (handle services s (.receiveTransaction body attempt push)).2) := by
  rcases body with e | _ | partialTx
  · exact ⟨1, by decide, none, rfl⟩
  · exact ⟨1, by decide, none, rfl⟩
  have hfirst : alone services (.receiveTransaction (.ok (some partialTx)) attempt push) (.arrived, s)
      = credit services attempt partialTx s := rfl
  simp only [handle, WalletReceiver.handle]
  unfold credit at hfirst
  rcases hread : readPartialTx env partialTx with e | ⟨amount, blinding, tx⟩ <;> rw [hread] at hfirst
  · rw [WalletReceiver.receiveJsonTx_of_error hread]
    exact ⟨1, by decide, none, hfirst⟩
  rw [WalletReceiver.receiveJsonTx_of_read hread]
  by_cases hfee : WalletReceiver.recipientFee tx = tx.fee
  swap
  · simp only [ne_eq, hfee, not_false_eq_true, if_true] at hfirst
    rw [receiveTransaction_of_dispute hfee]
    exact ⟨1, by decide, none, hfirst⟩
  simp only [ne_eq, hfee, not_true, if_false] at hfirst
  rw [WalletReceiver.receiveTransaction_eq hfee, WalletM.exec_bind, hfee]
  rcases hwrite : (withWallet services.config attempt
    (WalletReceiver.addReceived services.kc (amount - tx.fee))).exec s.world
      with ⟨e | ⟨keyId, derivation⟩, w⟩ <;> rw [hwrite] at hfirst
  · exact ⟨1, by decide, none, hfirst⟩
  have hsecond : (alone services (.receiveTransaction (.ok (some partialTx)) attempt push))^[2]
      (.arrived, s) = post services ⟨amount, blinding, tx, keyId⟩ { s with world := w } := by
    rw [Function.iterate_succ_apply', Function.iterate_one, hfirst]
    rfl
  unfold post complete at hsecond
  simp only at hsecond ⊢
  rw [WalletM.exec_lift]
  cases hbuilt : WalletReceiver.completePayment services.kc amount blinding tx keyId with
  | error e =>
    rw [hbuilt] at hsecond
    exact ⟨2, by decide, _, hsecond⟩
  | ok finalTx =>
    rw [hbuilt] at hsecond
    refine ⟨3, le_refl 3, some ⟨amount, blinding, tx, keyId⟩, ?_⟩
    rw [Function.iterate_succ_apply', hsecond]
    show acknowledge push _ _ = _
    simp only [acknowledge, WalletReceiver.pushTx]
    rcases push.result with e | ⟨⟩ <;> rfl

/-- Taken one after the other, the steps of a request do what its handler does. -/
theorem alone_handle (request : Request) (s : ServerState) :
    ∃ credit, (alone services request)^[9] (.arrived, s)
      = (.answered credit (handle services s request).1, (handle services s request).2) := by
  cases request with
  | info script =>
    obtain ⟨n, hn, h⟩ := alone_info services script s
    exact ⟨none, alone_of_answered services h (le_trans hn (by decide))⟩
  | send script =>
    obtain ⟨n, hn, h⟩ := alone_send services script s
    exact ⟨none, alone_of_answered services h hn⟩
  | receiveTransaction body attempt push =>
    obtain ⟨n, hn, credit, h⟩ := alone_receiveTransaction services body attempt push s
    exact ⟨credit, alone_of_answered services h (le_trans hn (by decide))⟩
  | receiveCoinbase body attempt =>
    have h : (alone services (.receiveCoinbase body attempt))^[1] (.arrived, s)
        = (.answered none (handle services s (.receiveCoinbase body attempt)).1,
            (handle services s (.receiveCoinbase body attempt)).2) := rfl
    exact ⟨none, alone_of_answered services h (by decide)⟩

end Alone

end ServerController

end GrinDotnet
