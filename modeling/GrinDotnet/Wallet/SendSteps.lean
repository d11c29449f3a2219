import GrinDotnet.Lib.Pool
import GrinDotnet.Wallet.Receiver

/-!
# A send, step by step

The requests of the wallet's server run concurrently, so a send is not one step: it reads and
selects without the lock, writes its change, delivers, and locks its coins, and other requests run
in between.

Results:
1. `alone_ready`: taken one after the other, the steps are `build_send_tx` and the rest of
   `issue_send_tx`.
2. `issueSendTx_eq`: before them come the refresh and the query for the height.
3. `buildSendTx_eq_ok`: what a send that is built has worked out and written.
-/

namespace GrinDotnet

open Outcome WorldLemmas WalletLemmas

variable {env : Env}

namespace Sender

/-- Where a send stands after the refresh it begins with. -/
inductive Phase
  /-- It has not read the wallet. -/
  | ready
  /-- It holds coins it selected. -/
  | selected (coins : List OutputData)
  /-- Its change is on disk and its transaction is built. -/
  | built (coins : List OutputData) (changeKey : Identifier) (partialTx : PartialTx)
  /-- The receiver accepted the partial transaction. -/
  | delivered (coins : List OutputData) (changeKey : Identifier)
  /-- It is about to roll back. -/
  | failing (coins : List OutputData) (changeKey : Identifier) (sent : Bool)
  /-- Its coins are locked and the partial transaction is about to be printed. -/
  | locked (coins : List OutputData) (partialTx : PartialTx)
  /-- It returned with its coins locked. -/
  | done (coins : List OutputData)
  /-- It returned after a rollback, or raised. -/
  | ended (coins : List OutputData) (sent : Bool) (result : Except Exn Unit)

namespace Phase

/-- The coins whose partial transaction has left the program. -/
def spent : Phase → List OutputData
  | delivered coins _ => coins
  | failing coins _ true => coins
  | done coins => coins
  | ended coins true _ => coins
  | _ => []

/-- The coins that are selected and not locked yet. -/
def pending : Phase → List OutputData
  | selected coins => coins
  | built coins _ _ => coins
  | delivered coins _ => coins
  | _ => []

/-- The coins that were locked. -/
def secured : Phase → List OutputData
  | locked coins _ => coins
  | done coins => coins
  | _ => []

/-- The coins the send has claimed: it may spend them yet, or has spent them. -/
def claimed : Phase → List OutputData
  | selected coins => coins
  | built coins _ _ => coins
  | delivered coins _ => coins
  | failing coins _ true => coins
  | locked coins _ => coins
  | done coins => coins
  | ended coins true _ => coins
  | _ => []

/-- The key of the change that a rollback would delete. -/
def changeKey : Phase → Option Identifier
  | built _ changeKey _ => some changeKey
  | delivered _ changeKey => some changeKey
  | failing _ changeKey _ => some changeKey
  | _ => none

/-- Whether the send has selected coins that nothing protects: they are neither locked nor given
up. -/
def busy : Phase → Bool
  | selected _ => true
  | built _ _ _ => true
  | delivered _ _ => true
  | failing _ _ _ => true
  | ended _ sent _ => sent
  | _ => false

/-- Whether the send has not begun. -/
def isReady : Phase → Bool
  | ready => true
  | _ => false

/-- How the send ended, if it did. -/
def result : Phase → Option (Except Exn Unit)
  | done _ => some (.ok ())
  | ended _ _ result => some result
  | _ => none

end Phase

/-- A send with its arguments, at the height it learned from the node. -/
structure Call (env : Env) where
  config : WalletConfig
  kc : Keychain env
  args : SendArgs
  height : UInt64
  script : SendScript

namespace Call

/-- The unlocked read. -/
def select (call : Call env) (w : World) : Phase × World :=
  match (readWallet call.script.selectFault (selectCoins call.kc call.args call.height)).exec w with
  | (.ok coins, w') => (.selected coins, w')
  | (.error e, w') => (.ended [] false (.error e), w')

/-- The read leaves the world alone. -/
theorem select_snd (call : Call env) (w : World) : (call.select w).2 = w := by
  have hsame := readWallet_snd call.script.selectFault (selectCoins call.kc call.args call.height) w
  unfold select
  rcases hread : (readWallet call.script.selectFault
    (selectCoins call.kc call.args call.height)).exec w with ⟨e | coins, w'⟩ <;>
    rw [hread] at hsame <;> exact hsame

/-- The change and the transaction. -/
def build (call : Call env) (coins : List OutputData) (w : World) : Phase × World :=
  match (inputsAndChange call.config call.kc call.script.addChange coins call.args.amount).exec w with
  | (.ok (parts, changeKey), w') =>
    match Build.transaction (parts ++ [Build.withLockHeight call.height]) call.kc with
    | .ok (tx, blind) => (.built coins changeKey (buildPartialTx env call.args.amount blind tx), w')
    | .error e => (.ended [] false (.error e), w')
  | (.error e, w') => (.ended [] false (.error e), w')

/-- The delivery, or for `stdout` the locking that comes before the printing. -/
def deliver (call : Call env) (coins : List OutputData) (changeKey : Identifier)
    (partialTx : PartialTx) (w : World) : Phase × World :=
  if call.args.dest = "stdout" then
    match (updateWallet call.config call.script.lock coins).exec w with
    | (.ok _, w') => (.locked coins partialTx, w')
    | (.error e, w') => (.ended [] false (.error e), w')
  else if env.stringStartsWith call.args.dest "http" then
    match (sendPartialTx call.script.delivery partialTx).exec w with
    | (.ok _, w') => (.delivered coins changeKey, w')
    | (.error _, w') => (.failing coins changeKey false, w')
  else (.ended [] false (.error (.exception ("dest not in expected format: " ++ call.args.dest))), w)

/-- The next step of a send. -/
def move (call : Call env) : Phase → World → Phase × World
  | .ready, w => call.select w
  | .selected coins, w => call.build coins w
  | .built coins changeKey partialTx, w => call.deliver coins changeKey partialTx w
  | .delivered coins changeKey, w =>
    match (updateWallet call.config call.script.lock coins).exec w with
    | (.ok _, w') => (.done coins, w')
    | (.error _, w') => (.failing coins changeKey true, w')
  | .failing coins changeKey sent, w =>
    match (rollbackWallet call.config call.script.rollback changeKey).exec w with
    | (result, w') => (.ended coins sent result, w')
  | .locked coins partialTx, w =>
    match (printTx partialTx).exec w with
    | (_, w') => (.done coins, w')
  | .done coins, w => (.done coins, w)
  | .ended coins sent result, w => (.ended coins sent result, w)

/-- The send as the source has it, without the refresh and the query for the height. -/
def run (call : Call env) : WalletM Unit := do
  let (tx, blindSum, coins, changeKey) ←
    buildSendTx call.script call.config call.kc call.args call.height
  dispatch env call.script call.config call.args.dest
    (buildPartialTx env call.args.amount blindSum tx) coins changeKey

/-- A send alone: its next step. -/
def alone (call : Call env) (p : Phase × World) : Phase × World := call.move p.1 p.2

theorem alone_ended (call : Call env) (n : ℕ) (coins : List OutputData) (sent : Bool)
    (result : Except Exn Unit) (w : World) :
    call.alone^[n] (.ended coins sent result, w) = (.ended coins sent result, w) :=
  Function.iterate_fixed rfl n

theorem alone_done (call : Call env) (n : ℕ) (coins : List OutputData) (w : World) :
    call.alone^[n] (.done coins, w) = (.done coins, w) :=
  Function.iterate_fixed rfl n

/-- The steps after the transaction is built are the end of `issue_send_tx`. -/
theorem alone_built (call : Call env) (coins : List OutputData) (changeKey : Identifier)
    (partialTx : PartialTx) (w : World) :
    ∃ phase, call.alone^[3] (.built coins changeKey partialTx, w)
        = (phase, ((dispatch env call.script call.config call.args.dest partialTx coins
            changeKey).exec w).2) ∧
      phase.result = some ((dispatch env call.script call.config call.args.dest partialTx coins
        changeKey).exec w).1 := by
  rw [Function.iterate_succ_apply]
  simp only [alone, move, deliver, dispatch]
  split
  · -- the coins are locked before the partial transaction is printed
    rw [WalletM.exec_bind]
    rcases (updateWallet call.config call.script.lock coins).exec w with ⟨e | ⟨⟨⟩⟩, w₁⟩
    · exact ⟨_, alone_ended call 2 _ _ _ _, rfl⟩
    · exact ⟨_, alone_done call 1 _ _, rfl⟩
  · split
    · rw [WalletM.exec_orElse, WalletM.exec_bind]
      rcases (sendPartialTx call.script.delivery partialTx).exec w with ⟨e | ⟨⟨⟩⟩, w₁⟩
      · exact ⟨_, alone_ended call 1 _ _ _ _, rfl⟩
      · rw [Function.iterate_succ_apply]
        simp only [alone, move]
        rcases (updateWallet call.config call.script.lock coins).exec w₁ with ⟨e | ⟨⟨⟩⟩, w₂⟩
        · exact ⟨_, rfl, rfl⟩
        · exact ⟨_, alone_done call 1 _ _, rfl⟩
    · exact ⟨_, alone_ended call 2 _ _ _ _, rfl⟩

/-- Taken one after the other, the steps of a send do what the source does. -/
theorem alone_ready (call : Call env) (w : World) :
    ∃ phase, call.alone^[5] (.ready, w) = (phase, (call.run.exec w).2) ∧
      phase.result = some (call.run.exec w).1 := by
  rw [Function.iterate_succ_apply]
  simp only [alone, move, select, run, buildSendTx, bind_assoc]
  rw [WalletM.exec_bind]
  rcases (readWallet call.script.selectFault
    (selectCoins call.kc call.args call.height)).exec w with ⟨e | coins, w₁⟩
  · exact ⟨_, alone_ended call 4 _ _ _ _, rfl⟩
  · rw [Function.iterate_succ_apply]
    simp only [alone, move, build]
    rw [WalletM.exec_bind]
    rcases (inputsAndChange call.config call.kc call.script.addChange coins
      call.args.amount).exec w₁ with ⟨e | ⟨parts, changeKey⟩, w₂⟩
    · exact ⟨_, alone_ended call 3 _ _ _ _, rfl⟩
    · simp only
      rw [WalletM.exec_bind, WalletM.exec_lift]
      rcases Build.transaction (parts ++ [Build.withLockHeight call.height]) call.kc
        with e | ⟨tx, blind⟩
      · exact ⟨_, alone_ended call 3 _ _ _ _, rfl⟩
      · exact alone_built call coins changeKey _ w₂

end Call

/-- After the refresh and the query for the height, a send is the run of its steps. -/
theorem issueSendTx_eq (script : SendScript) (config : WalletConfig) (kc : Keychain env)
    (args : SendArgs) :
    issueSendTx script config kc args = (do
      let _ ← Checker.refreshOutputs script.refresh config kc
      let height ← WalletM.lift script.tip
      Call.run ⟨config, kc, args, height, script⟩) := rfl

/-! ## The plan -/

/-- What a send works out before it writes: the height, the coins, the change, the inputs and the
key of the change. -/
structure Planned (script : SendScript) (kc : Keychain env) (args : SendArgs) (file : WalletFile)
    (height : UInt64) (coins : List OutputData) (change : UInt64)
    (inputs : List (UInt64 × Identifier)) (changeKey : Identifier) (data data' : WalletData) :
    Prop where
  tip : script.tip = .ok height
  selectFault : script.selectFault = none
  read : file.readOrCreate = .ok data
  select : selectCoins kc args height data = .ok coins
  funds : fundsAndInputs kc coins args.amount = .ok (change, inputs)
  record : addChange kc change data = .ok (changeKey, data')

namespace Planned

variable {script : SendScript} {kc : Keychain env} {args : SendArgs} {file : WalletFile}
  {height : UInt64} {coins : List OutputData} {change : UInt64}
  {inputs : List (UInt64 × Identifier)} {changeKey : Identifier} {data data' : WalletData}

/-- The key of the change is new. -/
theorem lookup_before (h : Planned script kc args file height coins change inputs changeKey data
    data') : data.outputs.lookup changeKey.hexValue = none := by
  have hadd := (SenderLemmas.addChange_eq_ok.mp h.record).2
  exact (Dictionary.add_eq_some_iff.mp (addOutput_eq_ok_iff.mp hadd)).1

theorem lookup_after (h : Planned script kc args file height coins change inputs changeKey data
    data') : ∃ o, data'.outputs.lookup changeKey.hexValue = some o := by
  have hadd := (SenderLemmas.addChange_eq_ok.mp h.record).2
  exact ⟨_, (lookup_addOutput hadd _).trans (if_pos rfl)⟩

/-- The plan follows from the arguments and the content of the file. -/
theorem unique (h : Planned script kc args file height coins change inputs changeKey data data')
    {height' : UInt64} {coins' : List OutputData} {change' : UInt64}
    {inputs' : List (UInt64 × Identifier)} {changeKey' : Identifier} {data₁ data₁' : WalletData}
    (h' : Planned script kc args file height' coins' change' inputs' changeKey' data₁ data₁') :
    height' = height ∧ coins' = coins ∧ change' = change ∧ inputs' = inputs ∧
      changeKey' = changeKey ∧ data₁ = data ∧ data₁' = data' := by
  obtain rfl := Except.ok.inj (h.tip.symm.trans h'.tip)
  obtain rfl := Except.ok.inj (h.read.symm.trans h'.read)
  obtain rfl := Except.ok.inj (h.select.symm.trans h'.select)
  obtain ⟨rfl, rfl⟩ := Prod.mk.inj (Except.ok.inj (h.funds.symm.trans h'.funds))
  obtain ⟨rfl, rfl⟩ := Prod.mk.inj (Except.ok.inj (h.record.symm.trans h'.record))
  exact ⟨rfl, rfl, rfl, rfl, rfl, rfl, rfl⟩

/-- Deleting the change restores the wallet. -/
theorem deleteOutput_eq (h : Planned script kc args file height coins change inputs changeKey data
    data') : data'.deleteOutput changeKey = data := by
  have hadd := (SenderLemmas.addChange_eq_ok.mp h.record).2
  have hremove := Dictionary.remove_add (addOutput_eq_ok_iff.mp hadd)
  exact congrArg WalletData.mk hremove

end Planned

/-- A built transaction went through the plan, the write and the build. -/
theorem buildSendTx_eq_ok {script : SendScript} {config : WalletConfig} {kc : Keychain env}
    {args : SendArgs} {height : UInt64} {w w' : World} {tx : Transaction}
    {blind : BlindingFactor env.secp} {coins : List OutputData} {changeKey : Identifier}
    (htip : script.tip = .ok height)
    (h : (buildSendTx script config kc args height).exec w
      = (.ok (tx, blind, coins, changeKey), w')) :
    ∃ change inputs data data',
      Planned script kc args w.file height coins change inputs changeKey data data' ∧
      w' = { w with file := .stored data', lockHeld := false } := by
  obtain ⟨coins₁, w₁, hread, h₁⟩ := WalletM.exec_bind_eq_ok.mp h
  obtain ⟨rfl, hfault, data, hdata, hselect⟩ := readWallet_eq_ok hread
  obtain ⟨⟨parts, key⟩, w₂, hparts, h₂⟩ := WalletM.exec_bind_eq_ok.mp h₁
  obtain ⟨change, inputs, data₁, data', hfunds, hdata₁, hrecord, -, rfl⟩ :=
    SenderLemmas.inputsAndChange_eq_ok hparts
  obtain rfl := Except.ok.inj (hdata.symm.trans hdata₁)
  obtain ⟨⟨tx₁, blind₁⟩, w₃, hbuild, h₃⟩ := WalletM.exec_bind_eq_ok.mp h₂
  obtain ⟨-, rfl⟩ := Prod.mk.inj hbuild
  obtain ⟨hresult, rfl⟩ := Prod.mk.inj h₃
  obtain ⟨rfl, rfl, rfl, rfl⟩ : tx₁ = tx ∧ blind₁ = blind ∧ coins₁ = coins ∧ key = changeKey := by
    simpa using Except.ok.inj hresult
  exact ⟨change, inputs, data, data', ⟨htip, hfault, hdata, hselect, hfunds, hrecord⟩, rfl⟩

/-! ## A send over pairs -/

/-- The wallet's surroundings before a send. -/
def pairWorld : World := ⟨.stored pairWallet, false, [], []⟩

/-- A send of nine million, one coin at most. -/
def pairArgs (dest : String) : SendArgs := ⟨9000000, 1, dest, 1, false⟩

/-- Surroundings in which nothing goes wrong, except that the node does not answer the refresh. -/
def pairScript : SendScript where
  refresh := ⟨none, .unreachable, Attempt.calm⟩
  tip := .ok 3
  selectFault := none
  addChange := Attempt.calm
  delivery := none
  lock := Attempt.calm
  rollback := Attempt.calm

/-- The steps of that send. -/
def pairCall : Call Pairs.env := ⟨⟨""⟩, pairSender, pairArgs "http://receiver", 3, pairScript⟩

end Sender

end GrinDotnet
