import GrinDotnet.Core.Build
import GrinDotnet.Keychain.PairKeychain
import GrinDotnet.Wallet.Checker

/-!
# Sending

`PartialTx` and `Sender`: select coins, write the change output, build the sender's half of the
transaction, deliver it and lock the coins. The change is on disk before the transaction is built.
-/

namespace GrinDotnet

open BigEndian Outcome

variable {env : Env}

/-- `PartialTx.build_partial_tx`. -/
def buildPartialTx (env : Env) (receiveAmount : UInt64) (blindSum : BlindingFactor env.secp)
    (transaction : Transaction) : PartialTx :=
  { amount := receiveAmount
    blindSum := toHex blindSum.key.value.1
    tx := toHex (transaction.serVec env) }

/-- `PartialTx.read_partial_tx`. -/
def readPartialTx (env : Env) (partialTx : PartialTx) :
    Except Exn (UInt64 × BlindingFactor env.secp × Transaction) := do
  let blindBin ← fromHex partialTx.blindSum
  let blinding ← SecretKey.fromSlice env.secp blindBin
  let txBin ← fromHex partialTx.tx
  let transaction ← Transaction.deserialize txBin
  return (partialTx.amount, ⟨blinding⟩, transaction)

namespace Sender

/-- The record of the change output. -/
def changeOutput (kc : Keychain env) (changeKey : Identifier) (changeDerivation : UInt32)
    (change : UInt64) : OutputData :=
  { rootKeyId := kc.rootKeyId.hexValue
    keyId := changeKey.hexValue
    nChild := changeDerivation
    value := change
    status := .unconfirmed
    height := 0
    lockHeight := 0
    isCoinbase := false }

/-- The closure of `inputs_and_change`: a record for the change under the next key. -/
def addChange (kc : Keychain env) (change : UInt64) (walletData : WalletData) :
    Except Exn (Identifier × WalletData) := do
  let changeDerivation := walletData.nextChild kc.rootKeyId
  let changeKey ← kc.deriveKeyId changeDerivation
  let walletData ← walletData.addOutput (changeOutput kc changeKey changeDerivation change)
  return (changeKey, walletData)

/-- An input of `inputs_and_change`: the coin's value and its derived key id. -/
def coinInput (kc : Keychain env) (coin : OutputData) : Except Exn (UInt64 × Identifier) := do
  let keyId ← kc.deriveKeyId coin.nChild
  return (coin.value, keyId)

/-- The inputs of `inputs_and_change`, whose key ids are derived before the wallet is touched. -/
def coinInputs (kc : Keychain env) (coins : List OutputData) :
    Except Exn (List (UInt64 × Identifier)) :=
  coins.mapM (coinInput kc)

/-- The fee of a send of a number of coins. -/
def sendFee (coins : List OutputData) : UInt64 := txFee (UInt32.ofNat coins.length) 2 none

/-- The checks of `inputs_and_change` before the wallet is written: the change and the inputs. -/
def fundsAndInputs (kc : Keychain env) (coins : List OutputData) (amount : UInt64) :
    Except Exn (UInt64 × List (UInt64 × Identifier)) := do
  let total ← aggregate (· + ·) (coins.map (·.value))
  if total < amount then .error (.wallet .notEnoughFunds none [])
  else do
    let inputs ← coinInputs kc coins
    return (total - amount, inputs)

/-- `Sender.inputs_and_change`. -/
def inputsAndChange (config : WalletConfig) (kc : Keychain env) (attempt : Attempt)
    (coins : List OutputData) (amount : UInt64) : WalletM (List (Combinator env) × Identifier) := do
  let (change, inputs) ← WalletM.lift (fundsAndInputs kc coins amount)
  -- the coins were selected from an earlier read, and the wallet is read again here
  let changeKey ← withWallet config attempt (addChange kc change)
  return (Build.withFee (sendFee coins) :: inputs.map (fun c => Build.input c.1 c.2)
    ++ [Build.output change changeKey], changeKey)

/-- The arguments of a send. -/
structure SendArgs where
  amount : UInt64
  minimumConfirmations : UInt64
  dest : String
  maxOutputs : UInt32
  selectionStrategy : Bool

/-- What the surroundings do to one send. -/
structure SendScript where
  refresh : Checker.RefreshScript
  /-- The height of the chain's tip. -/
  tip : Except Exn UInt64
  selectFault : Option Exn
  addChange : Attempt
  /-- The exception of the delivery, if it fails. -/
  delivery : Option Exn
  lock : Attempt
  rollback : Attempt

/-- The selection of `build_send_tx` at a height. -/
def selectCoins (kc : Keychain env) (args : SendArgs) (currentHeight : UInt64)
    (walletData : WalletData) : Except Exn (List OutputData) :=
  walletData.select env kc.rootKeyId args.amount currentHeight args.minimumConfirmations
    args.maxOutputs args.selectionStrategy

/-- `Sender.build_send_tx`, whose lock height is the current height. -/
def buildSendTx (script : SendScript) (config : WalletConfig) (kc : Keychain env) (args : SendArgs)
    (currentHeight : UInt64) :
    WalletM (Transaction × BlindingFactor env.secp × List OutputData × Identifier) := do
  let coins ← readWallet script.selectFault (selectCoins kc args currentHeight)
  let (parts, changeKey) ← inputsAndChange config kc script.addChange coins args.amount
  let (tx, blind) ←
    WalletM.lift (Build.transaction (parts ++ [Build.withLockHeight currentHeight]) kc)
  return (tx, blind, coins, changeKey)

/-- The closure `UpdateWallet`. -/
def updateWallet (config : WalletConfig) (attempt : Attempt) (coins : List OutputData) :
    WalletM Unit :=
  withWallet config attempt fun walletData => do
    let walletData ← walletData.lockCoins coins
    return ((), walletData)

/-- The closure `RollbackWallet`. -/
def rollbackWallet (config : WalletConfig) (attempt : Attempt) (changeKey : Identifier) :
    WalletM Unit :=
  withWallet config attempt fun walletData => .ok ((), walletData.deleteOutput changeKey)

/-- `Client.send_partial_tx`: it returns when the receiver answers with success. -/
def sendPartialTx (delivery : Option Exn) (partialTx : PartialTx) : WalletM Unit := fun w =>
  match delivery with
  | some e => (.error e, w)
  | none => (.ok (), { w with delivered := w.delivered ++ [partialTx] })

/-- `Console.WriteLine` of the partial transaction. -/
def printTx (partialTx : PartialTx) : WalletM Unit := fun w =>
  (.ok (), { w with printed := w.printed ++ [partialTx] })

/-- The part of `issue_send_tx` after the transaction is built, by destination. -/
def dispatch (env : Env) (script : SendScript) (config : WalletConfig) (dest : String)
    (partialTx : PartialTx) (coins : List OutputData) (changeKey : Identifier) : WalletM Unit :=
  if dest = "stdout" then do
    updateWallet config script.lock coins
    printTx partialTx
  else if env.stringStartsWith dest "http" then
    WalletM.orElse
      (do
        sendPartialTx script.delivery partialTx
        updateWallet config script.lock coins)
      -- the `try` spans the locking too, so its exceptions roll back a payment that is out
      fun _ => rollbackWallet config script.rollback changeKey
  else throw (.exception ("dest not in expected format: " ++ dest))

/-- `Sender.issue_send_tx`. -/
def issueSendTx (script : SendScript) (config : WalletConfig) (kc : Keychain env)
    (args : SendArgs) : WalletM Unit := do
  -- a refresh that answers `false` does not stop the send
  let _ ← Checker.refreshOutputs script.refresh config kc
  let currentHeight ← WalletM.lift script.tip
  let (tx, blindSum, coins, changeKey) ← buildSendTx script config kc args currentHeight
  dispatch env script config args.dest (buildPartialTx env args.amount blindSum tx) coins changeKey

end Sender

/-! ## What the parts of a send do -/

namespace SenderLemmas

open Sender WorldLemmas WalletLemmas

/-- The change is recorded under the key of the next child. -/
theorem addChange_eq_ok {kc : Keychain env} {change : UInt64} {data data' : WalletData}
    {changeKey : Identifier} :
    addChange kc change data = .ok (changeKey, data') ↔
      kc.deriveKeyId (data.nextChild kc.rootKeyId) = .ok changeKey ∧
      data.addOutput (changeOutput kc changeKey (data.nextChild kc.rootKeyId) change)
        = .ok data' := by
  unfold addChange
  simp only [bind_eq_ok, pure_eq_ok, Except.ok.injEq, Prod.mk.injEq]
  constructor
  · rintro ⟨id, hid, d, hd, rfl, rfl⟩
    exact ⟨hid, hd⟩
  · rintro ⟨hid, hd⟩
    exact ⟨_, hid, _, hd, rfl, rfl⟩

/-- The parts of a send: the fee, the coins and the change. -/
def sendParts (coins : List OutputData) (inputs : List (UInt64 × Identifier)) (change : UInt64)
    (changeKey : Identifier) : List (Combinator env) :=
  Build.withFee (sendFee coins) :: inputs.map (fun c => Build.input c.1 c.2)
    ++ [Build.output change changeKey]

/-- `inputs_and_change` answers when the change was written. -/
theorem inputsAndChange_eq_ok {config : WalletConfig} {kc : Keychain env} {attempt : Attempt}
    {coins : List OutputData} {amount : UInt64} {w w' : World} {parts : List (Combinator env)}
    {changeKey : Identifier}
    (h : (inputsAndChange config kc attempt coins amount).exec w = (.ok (parts, changeKey), w')) :
    ∃ change inputs data data', fundsAndInputs kc coins amount = .ok (change, inputs) ∧
      w.file.readOrCreate = .ok data ∧ addChange kc change data = .ok (changeKey, data') ∧
      parts = sendParts coins inputs change changeKey ∧
      w' = { w with file := .stored data', lockHeld := false } := by
  obtain ⟨⟨change, inputs⟩, w₁, hlift, h⟩ := WalletM.exec_bind_eq_ok.mp h
  obtain ⟨hfunds, rfl⟩ := Prod.mk.inj hlift
  obtain ⟨key, w₂, hwrite, h⟩ := WalletM.exec_bind_eq_ok.mp h
  obtain ⟨hparts, rfl⟩ := Prod.mk.inj h
  obtain ⟨rfl, rfl⟩ := Prod.mk.inj (Except.ok.inj hparts)
  obtain ⟨data, data', hread, hadd, rfl⟩ := withWallet_eq_ok hwrite
  exact ⟨change, inputs, data, data', hfunds, hread, hadd, rfl, rfl⟩

/-- With a plan and nothing in the way, `inputs_and_change` records the change. -/
theorem exec_inputsAndChange {config : WalletConfig} {kc : Keychain env} {attempt : Attempt}
    {coins : List OutputData} {amount change : UInt64} {w : World} {data data' : WalletData}
    {inputs : List (UInt64 × Identifier)} {changeKey : Identifier}
    (hfault : attempt.fault = none) (hheld : w.lockHeld = true → attempt.finalizer = true)
    (hfunds : fundsAndInputs kc coins amount = .ok (change, inputs))
    (hread : w.file.readOrCreate = .ok data) (hadd : addChange kc change data = .ok (changeKey, data')) :
    (inputsAndChange config kc attempt coins amount).exec w
      = (.ok (sendParts coins inputs change changeKey, changeKey),
          { w with file := .stored data', lockHeld := false }) := by
  have hlift : (WalletM.lift (fundsAndInputs kc coins amount)).exec w = (.ok (change, inputs), w) := by
    rw [WalletM.exec_lift, hfunds]
  rw [inputsAndChange, WalletM.exec_bind_of_ok hlift]
  exact WalletM.exec_bind_of_ok (withWallet_of_none hfault hheld hread hadd)

theorem keeps_addChange {kc : Keychain env} {change : UInt64} {data data' : WalletData}
    {changeKey : Identifier} (h : addChange kc change data = .ok (changeKey, data')) :
    data.Keeps data' ∧ (data.WellKeyed → data'.WellKeyed) :=
  have hadd := (addChange_eq_ok.mp h).2
  ⟨keeps_addOutput hadd, wellKeyed_addOutput hadd⟩

theorem keeps_inputsAndChange (config : WalletConfig) (kc : Keychain env) (attempt : Attempt)
    (coins : List OutputData) (amount : UInt64) (w : World) :
    w.file.Keeps ((inputsAndChange config kc attempt coins amount).exec w).2.file := by
  refine keeps_bind (keeps_lift _) (fun funds => ?_) w
  exact keeps_bind (fun _ => keeps_withWallet fun _ _ _ => keeps_addChange) fun _ => keeps_pure _

theorem keeps_updateWallet (config : WalletConfig) (attempt : Attempt) (coins : List OutputData)
    (w : World) : w.file.Keeps ((updateWallet config attempt coins).exec w).2.file := by
  refine keeps_withWallet fun data _ data' h => ?_
  obtain ⟨d, hlock, h⟩ := bind_eq_ok.mp h
  cases h
  have hevolves := evolves_lockCoins hlock
  exact ⟨keeps_of_evolves hevolves, wellKeyed_evolves hevolves⟩

/-- `UpdateWallet` answers when the coins were locked. -/
theorem updateWallet_eq_ok {config : WalletConfig} {attempt : Attempt} {coins : List OutputData}
    {w w' : World} {u : Unit} (h : (updateWallet config attempt coins).exec w = (.ok u, w')) :
    ∃ data data', w.file.readOrCreate = .ok data ∧ data.lockCoins coins = .ok data' ∧
      w' = { w with file := .stored data', lockHeld := false } := by
  obtain ⟨data, data', hread, hclosure, rfl⟩ := withWallet_eq_ok h
  obtain ⟨d, hlock, hd⟩ := bind_eq_ok.mp hclosure
  cases hd
  exact ⟨data, _, hread, hlock, rfl⟩

end SenderLemmas

/-! ## A wallet over pairs -/

/-- A keychain over pairs that sends. -/
def pairSender : Keychain Pairs.env := Pairs.keychain 5 (by decide)

/-- A coin of the sender: an unspent output of a child key. -/
def pairCoin (n : UInt32) (value : UInt64) : OutputData where
  rootKeyId := pairSender.rootKeyId.hexValue
  keyId := toHex (ofNat 10 (n.toNat + 6))
  nChild := n
  value
  status := .unspent
  height := 3
  lockHeight := 0
  isCoinbase := false

/-- A wallet of two coins of ten million. -/
def pairWallet : WalletData where
  outputs :=
    { entries := [pairCoin 1 10000000, pairCoin 2 10000000].map fun c => (c.keyId, c)
      nodup := by decide +kernel }

theorem wellKeyed_pairWallet : pairWallet.WellKeyed := by
  intro k o ho
  have hmem := Dictionary.mem_entries_iff.mpr ho
  simp only [pairWallet, List.map_cons, List.map_nil, List.mem_cons, List.not_mem_nil, or_false,
    Prod.mk.injEq] at hmem
  rcases hmem with ⟨rfl, rfl⟩ | ⟨rfl, rfl⟩ <;> rfl

end GrinDotnet
