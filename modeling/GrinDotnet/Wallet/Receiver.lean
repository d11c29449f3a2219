import GrinDotnet.Core.Block
import GrinDotnet.Wallet.Sender

/-!
# Receiving

`WalletReceiver`: complete a partial transaction, or build a coinbase, with a new record in the
wallet.
-/

namespace GrinDotnet

open BigEndian Outcome

variable {env : Env}

/-- `BlockFees`. -/
structure BlockFees where
  fees : UInt64
  height : UInt64
  keyId : Option Identifier

namespace WalletReceiver

/-- `WalletReceiver.next_available_key`. -/
def nextAvailableKey (walletData : WalletData) (kc : Keychain env) :
    Except Exn (Identifier × UInt32) := do
  let derivation := walletData.nextChild kc.rootKeyId
  let keyId ← kc.deriveKeyId derivation
  return (keyId, derivation)

/-- `WalletReceiver.retrieve_existing_key`, on the content of the wallet file. -/
def retrieveExistingKey (walletData : WalletData) (keyId : Identifier) :
    Except Exn (Identifier × UInt32) := do
  let existing ← walletData.getOutput keyId
  let keyId2 ← Identifier.fromHex existing.keyId
  return (keyId2, existing.nChild)

/-- The record of a received output. -/
def receivedOutput (kc : Keychain env) (keyId : Identifier) (derivation : UInt32) (value : UInt64)
    (isCoinbase : Bool) : OutputData :=
  { rootKeyId := kc.rootKeyId.hexValue
    keyId := keyId.hexValue
    nChild := derivation
    value
    status := .unconfirmed
    height := 0
    lockHeight := 0
    isCoinbase }

/-- The closure of `receive_transaction`: a record under the next key. -/
def addReceived (kc : Keychain env) (outAmount : UInt64) (walletData : WalletData) :
    Except Exn ((Identifier × UInt32) × WalletData) := do
  let (keyId, derivation) ← nextAvailableKey walletData kc
  let walletData ← walletData.addOutput (receivedOutput kc keyId derivation outAmount false)
  return ((keyId, derivation), walletData)

/-- The fee a receiver expects of a partial transaction. -/
def recipientFee (tx : Transaction) : UInt64 :=
  txFee (UInt32.ofNat tx.inputs.length) (UInt32.ofNat tx.outputs.length + 1) none

/-- `WalletReceiver.receive_transaction`. -/
def receiveTransaction (config : WalletConfig) (kc : Keychain env) (attempt : Attempt)
    (amount : UInt64) (blinding : BlindingFactor env.secp) (tx : Transaction) :
    WalletM Transaction := do
  let fee := recipientFee tx
  if fee ≠ tx.fee then
    throw (.wallet .feeDispute none [("sender_fee", tx.fee), ("recipient_fee", fee)])
  else do
    let outAmount := amount - fee
    -- the record is on disk before the transaction is built and validated
    let (keyId, _) ← withWallet config attempt (addReceived kc outAmount)
    let (txFinal, _) ← WalletM.lift (Build.transaction
      [Build.initialTx tx, Build.withExcess blinding, Build.output outAmount keyId] kc)
    WalletM.lift (txFinal.validate env.secp kc.secp)
    return txFinal

/-- The closure of `receive_coinbase`: a record of the reward under the key asked for, or under the
next one. -/
def addCoinbase (kc : Keychain env) (blockFees : BlockFees) (walletData : WalletData) :
    Except Exn ((Identifier × UInt32) × WalletData) := do
  let (keyId, derivation) ←
    match blockFees.keyId with
    | some keyId => retrieveExistingKey walletData keyId
    | none => nextAvailableKey walletData kc
  let walletData ← walletData.addOutput
    (receivedOutput kc keyId derivation (Consensus.reward blockFees.fees) true)
  return ((keyId, derivation), walletData)

/-- `WalletReceiver.receive_coinbase`. -/
def receiveCoinbase (config : WalletConfig) (kc : Keychain env) (attempt : Attempt)
    (blockFees : BlockFees) : WalletM (Output × TxKernel × BlockFees) := do
  let (keyId, _) ← withWallet config attempt (addCoinbase kc blockFees)
  let (outd, kern) ← WalletM.lift (Block.rewardOutput kc keyId blockFees.fees)
  return (outd, kern, { blockFees with keyId := some keyId })

end WalletReceiver

/-! ## What the closures record -/

namespace ReceiverLemmas

open WalletReceiver WalletLemmas WorldLemmas

theorem nextAvailableKey_eq_ok {kc : Keychain env} {data : WalletData} {keyId : Identifier}
    {derivation : UInt32} :
    nextAvailableKey data kc = .ok (keyId, derivation) ↔
      kc.deriveKeyId (data.nextChild kc.rootKeyId) = .ok keyId ∧
      derivation = data.nextChild kc.rootKeyId := by
  unfold nextAvailableKey
  simp only [bind_eq_ok, pure_eq_ok, Except.ok.injEq, Prod.mk.injEq]
  constructor
  · rintro ⟨id, hid, rfl, rfl⟩
    exact ⟨hid, rfl⟩
  · rintro ⟨hid, rfl⟩
    exact ⟨_, hid, rfl, rfl⟩

/-- A record that is filed under the next available key. -/
theorem addOutput_nextAvailableKey {kc : Keychain env} {data data' : WalletData}
    (record : Identifier → UInt32 → OutputData) {keyId : Identifier} {derivation : UInt32} :
    (do
      let (keyId, derivation) ← nextAvailableKey data kc
      let walletData ← data.addOutput (record keyId derivation)
      return ((keyId, derivation), walletData)) = .ok ((keyId, derivation), data') ↔
      kc.deriveKeyId (data.nextChild kc.rootKeyId) = .ok keyId ∧
      derivation = data.nextChild kc.rootKeyId ∧
      data.addOutput (record keyId derivation) = .ok data' := by
  simp only [bind_eq_ok, pure_eq_ok, Except.ok.injEq, Prod.mk.injEq, Prod.exists,
    nextAvailableKey_eq_ok]
  constructor
  · rintro ⟨id, n, ⟨hid, rfl⟩, d, hd, ⟨rfl, rfl⟩, rfl⟩
    exact ⟨hid, rfl, hd⟩
  · rintro ⟨hid, rfl, hd⟩
    exact ⟨_, _, ⟨hid, rfl⟩, _, hd, ⟨rfl, rfl⟩, rfl⟩

/-- A received output is recorded under the key of the next child. -/
theorem addReceived_eq_ok {kc : Keychain env} {outAmount : UInt64} {data data' : WalletData}
    {keyId : Identifier} {derivation : UInt32} :
    addReceived kc outAmount data = .ok ((keyId, derivation), data') ↔
      kc.deriveKeyId (data.nextChild kc.rootKeyId) = .ok keyId ∧
      derivation = data.nextChild kc.rootKeyId ∧
      data.addOutput (receivedOutput kc keyId derivation outAmount false) = .ok data' :=
  addOutput_nextAvailableKey fun keyId derivation =>
    receivedOutput kc keyId derivation outAmount false

/-- Without a key asked for, a reward is recorded under the key of the next child. -/
theorem addCoinbase_eq_ok {kc : Keychain env} {fees height : UInt64} {data data' : WalletData}
    {keyId : Identifier} {derivation : UInt32} :
    addCoinbase kc ⟨fees, height, none⟩ data = .ok ((keyId, derivation), data') ↔
      kc.deriveKeyId (data.nextChild kc.rootKeyId) = .ok keyId ∧
      derivation = data.nextChild kc.rootKeyId ∧
      data.addOutput (receivedOutput kc keyId derivation (Consensus.reward fees) true)
        = .ok data' :=
  addOutput_nextAvailableKey fun keyId derivation =>
    receivedOutput kc keyId derivation (Consensus.reward fees) true

/-- Whatever key a reward is recorded under, it is one more record. -/
theorem exists_addOutput_of_addCoinbase {kc : Keychain env} {blockFees : BlockFees}
    {data data' : WalletData} {key : Identifier × UInt32}
    (h : addCoinbase kc blockFees data = .ok (key, data')) :
    ∃ o, data.addOutput o = .ok data' := by
  unfold addCoinbase at h
  split at h <;> obtain ⟨⟨keyId, derivation⟩, -, h⟩ := bind_eq_ok.mp h <;>
    obtain ⟨d, hd, h⟩ := bind_eq_ok.mp h <;> cases h <;> exact ⟨_, hd⟩

theorem keeps_addReceived {kc : Keychain env} {outAmount : UInt64} {data data' : WalletData}
    {key : Identifier × UInt32} (h : addReceived kc outAmount data = .ok (key, data')) :
    data.Keeps data' ∧ (data.WellKeyed → data'.WellKeyed) :=
  have hadd := (addReceived_eq_ok.mp h).2.2
  ⟨keeps_addOutput hadd, wellKeyed_addOutput hadd⟩

theorem keeps_addCoinbase {kc : Keychain env} {blockFees : BlockFees} {data data' : WalletData}
    {key : Identifier × UInt32} (h : addCoinbase kc blockFees data = .ok (key, data')) :
    data.Keeps data' ∧ (data.WellKeyed → data'.WellKeyed) :=
  have ⟨_, hadd⟩ := exists_addOutput_of_addCoinbase h
  ⟨keeps_addOutput hadd, wellKeyed_addOutput hadd⟩

/-- Receiving a payment loses no record. -/
theorem keeps_receiveTransaction (config : WalletConfig) (kc : Keychain env) (attempt : Attempt)
    (amount : UInt64) (blinding : BlindingFactor env.secp) (tx : Transaction) (w : World) :
    w.file.Keeps ((receiveTransaction config kc attempt amount blinding tx).exec w).2.file := by
  simp only [receiveTransaction]
  split
  · exact keeps_refl _
  · refine keeps_bind (fun _ => keeps_withWallet fun _ _ _ => keeps_addReceived) (fun key => ?_) w
    refine keeps_bind (keeps_lift _) fun built => ?_
    exact keeps_bind (keeps_lift _) fun _ => keeps_pure _

/-- Receiving a reward loses no record. -/
theorem keeps_receiveCoinbase (config : WalletConfig) (kc : Keychain env) (attempt : Attempt)
    (blockFees : BlockFees) (w : World) :
    w.file.Keeps ((receiveCoinbase config kc attempt blockFees).exec w).2.file := by
  refine keeps_bind (fun _ => keeps_withWallet fun _ _ _ => keeps_addCoinbase) (fun key => ?_) w
  exact keeps_bind (keeps_lift _) fun _ => keeps_pure _

/-- A received transaction was recorded, built and found valid. -/
theorem receiveTransaction_eq_ok {config : WalletConfig} {kc : Keychain env} {attempt : Attempt}
    {amount : UInt64} {blinding : BlindingFactor env.secp} {tx txFinal : Transaction} {w w' : World}
    (h : (receiveTransaction config kc attempt amount blinding tx).exec w = (.ok txFinal, w')) :
    ∃ data data' keyId derivation blind, w.file.readOrCreate = .ok data ∧
      addReceived kc (amount - recipientFee tx) data = .ok ((keyId, derivation), data') ∧
      Build.transaction [Build.initialTx tx, Build.withExcess blinding,
        Build.output (amount - recipientFee tx) keyId] kc = .ok (txFinal, blind) ∧
      w' = { w with file := .stored data', lockHeld := false } := by
  simp only [receiveTransaction] at h
  by_cases hfee : recipientFee tx ≠ tx.fee
  · rw [if_pos hfee] at h
    cases h
  · rw [if_neg hfee] at h
    obtain ⟨⟨keyId, derivation⟩, w₁, hwrite, h⟩ := WalletM.exec_bind_eq_ok.mp h
    obtain ⟨data, data', hread, hadd, rfl⟩ := withWallet_eq_ok hwrite
    obtain ⟨⟨built, blind⟩, w₂, hlift, h⟩ := WalletM.exec_bind_eq_ok.mp h
    obtain ⟨hbuild, rfl⟩ := Prod.mk.inj hlift
    obtain ⟨⟨⟩, w₃, hvalid, h⟩ := WalletM.exec_bind_eq_ok.mp h
    obtain ⟨-, rfl⟩ := Prod.mk.inj hvalid
    obtain ⟨hfinal, rfl⟩ := Prod.mk.inj h
    obtain rfl := Except.ok.inj hfinal
    exact ⟨data, data', keyId, derivation, blind, hread, hadd, hbuild, rfl⟩

/-- A received reward was recorded and built. -/
theorem receiveCoinbase_eq_ok {config : WalletConfig} {kc : Keychain env} {attempt : Attempt}
    {blockFees after : BlockFees} {out : Output} {kern : TxKernel} {w w' : World}
    (h : (receiveCoinbase config kc attempt blockFees).exec w = (.ok (out, kern, after), w')) :
    ∃ data data' keyId derivation, w.file.readOrCreate = .ok data ∧
      addCoinbase kc blockFees data = .ok ((keyId, derivation), data') ∧
      Block.rewardOutput kc keyId blockFees.fees = .ok (out, kern) ∧
      w' = { w with file := .stored data', lockHeld := false } := by
  obtain ⟨⟨keyId, derivation⟩, w₁, hwrite, h⟩ := WalletM.exec_bind_eq_ok.mp h
  obtain ⟨data, data', hread, hadd, rfl⟩ := withWallet_eq_ok hwrite
  obtain ⟨⟨out₁, kern₁⟩, w₂, hlift, h⟩ := WalletM.exec_bind_eq_ok.mp h
  obtain ⟨hreward, rfl⟩ := Prod.mk.inj hlift
  obtain ⟨hresult, rfl⟩ := Prod.mk.inj h
  obtain ⟨rfl, rfl, -⟩ : out₁ = out ∧ kern₁ = kern ∧ _ := by simpa using Except.ok.inj hresult
  exact ⟨data, data', keyId, derivation, hread, hadd, hreward, rfl⟩

/-- The reward is the commitment of its value under its key id. -/
theorem commit_of_rewardOutput {kc : Keychain env} {keyId : Identifier} {fees : UInt64}
    {out : Output} {kern : TxKernel} (h : Block.rewardOutput kc keyId fees = .ok (out, kern)) :
    kc.commit (Consensus.reward fees) keyId = .ok out.commit := by
  obtain ⟨commit, hcommit, h⟩ := bind_eq_ok.mp h
  obtain ⟨_, -, h⟩ := bind_eq_ok.mp h
  obtain ⟨_, -, h⟩ := bind_eq_ok.mp h
  obtain ⟨_, -, h⟩ := bind_eq_ok.mp h
  obtain ⟨_, -, h⟩ := bind_eq_ok.mp h
  obtain ⟨_, -, h⟩ := bind_eq_ok.mp h
  obtain ⟨_, -, h⟩ := bind_eq_ok.mp h
  obtain ⟨_, -, h⟩ := bind_eq_ok.mp h
  cases h
  exact hcommit

end ReceiverLemmas

end GrinDotnet
