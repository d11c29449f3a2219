import GrinDotnet.Wallet.Exchange

/-!
# Rebuilding a coinbase

A miner asks for the reward of a block again, under the key it was given, when the fees change.
`receive_coinbase` looks the key up and files a record under it once more.

Results:
1. `rebuild_raises`: of a wallet that files its records under their keys, the call raises.
2. `rebuild_never`: in no wallet does the call replace the record.
-/

namespace GrinDotnet

open BigEndian Outcome WorldLemmas ReceiverLemmas WalletLemmas

variable {env : Env}

namespace WalletReceiver

/-- The reward can be rebuilt: the wallet lists an unconfirmed coinbase of the keychain under the
key id. -/
structure Rebuildable (kc : Keychain env) (keyId : Identifier) (w : World) (o : OutputData) :
    Prop where
  record : w.file.record? keyId.hexValue = some o
  status : o.status = .unconfirmed
  isCoinbase : o.isCoinbase = true
  rootKeyId : o.rootKeyId = kc.rootKeyId.hexValue

/-- The reward is rebuilt: the call answers an output of the new value under the key, the wallet
lists the new value in the record of that key, and the other records are the ones it had. -/
def Rebuilds (config : WalletConfig) (kc : Keychain env) (attempt : Attempt) (fees height : UInt64)
    (keyId : Identifier) (w : World) (o : OutputData) : Prop :=
  ∃ out kern after w', (receiveCoinbase config kc attempt ⟨fees, height, some keyId⟩).exec w
      = (.ok (out, kern, after), w') ∧
    (∃ r, Rebuildable kc keyId w' r ∧ r.nChild = o.nChild ∧ r.value = Consensus.reward fees) ∧
    (∀ k, k ≠ keyId.hexValue → w'.file.record? k = w.file.record? k) ∧
    kc.commit (Consensus.reward fees) keyId = .ok out.commit

variable {config : WalletConfig} {kc : Keychain env} {attempt : Attempt} {fees height : UInt64}
  {keyId : Identifier} {w : World} {o : OutputData}

/-- A record under its own key cannot be added once more: the closure raises. -/
theorem addCoinbase_of_lookup {data : WalletData} (hdata : data.WellKeyed)
    (hlen : keyId.value.length ≤ Identifier.identifierSize)
    (ho : data.outputs.lookup keyId.hexValue = some o) :
    addCoinbase kc ⟨fees, height, some keyId⟩ data = .error .argument := by
  have hkey : o.keyId = keyId.hexValue := hdata _ _ ho
  have hexisting : retrieveExistingKey data keyId = .ok (keyId, o.nChild) := by
    unfold retrieveExistingKey WalletData.getOutput
    rw [ho]
    simp only [ok_bind, hkey, Identifier.fromHex_hexValue hlen, pure_eq_ok]
  have hrefused : data.outputs.add keyId.hexValue
      (receivedOutput kc keyId o.nChild (Consensus.reward fees) true) = none :=
    Dictionary.add_eq_none_iff.mpr ⟨o, ho⟩
  unfold addCoinbase WalletData.addOutput
  simp only [hexisting, ok_bind]
  rw [show (receivedOutput kc keyId o.nChild (Consensus.reward fees) true).keyId = keyId.hexValue
    from rfl, hrefused]
  rfl

/-- Where the records are filed under their own keys, a call that gets the lock and reads the file
raises what `Dictionary.Add` raises, and leaves the lock held. -/
theorem rebuild_raises {data : WalletData} (hread : w.file.readOrCreate = .ok data)
    (hdata : data.WellKeyed) (hlen : keyId.value.length ≤ Identifier.identifierSize)
    (ho : data.outputs.lookup keyId.hexValue = some o) (hacquires : Acquires attempt w)
    (hfault : ∀ e, attempt.fault ≠ some (.read e)) :
    (receiveCoinbase config kc attempt ⟨fees, height, some keyId⟩).exec w
      = (.error .argument, { w with lockHeld := true }) := by
  refine WalletM.exec_bind_of_error ?_
  rw [withWallet_of_acquires hacquires]
  have hclosure : (w.file.readOrCreate >>= addCoinbase kc ⟨fees, height, some keyId⟩)
      = .error .argument := by
    rw [hread, ok_bind, addCoinbase_of_lookup hdata hlen ho]
  rcases hcase : attempt.fault with _ | fault
  · simp only [WalletM.exec, withLock, hclosure]
  · cases fault with
    | read e => exact absurd hcase (hfault e)
    | createDirectory | openLock | create | serialize | dispose =>
      simp only [WalletM.exec, withLock, hclosure]

/-- No call rebuilds a reward: what it can do is raise, or file another record. -/
theorem rebuild_never (config : WalletConfig) (kc : Keychain env) (attempt : Attempt)
    (fees height : UInt64) (keyId : Identifier) (w : World) (o : OutputData)
    (ho : Rebuildable kc keyId w o) : ¬ Rebuilds config kc attempt fees height keyId w o := by
  rintro ⟨out, kern, after, w', hexec, -, hothers, -⟩
  obtain ⟨data, data', keyId', derivation, hread, hadd, -, rfl⟩ := receiveCoinbase_eq_ok hexec
  obtain ⟨o', hadded⟩ := exists_addOutput_of_addCoinbase hadd
  have hnone : data.outputs.lookup o'.keyId = none :=
    (Dictionary.add_eq_some_iff.mp (addOutput_eq_ok_iff.mp hadded)).1
  have hsome : data'.outputs.lookup o'.keyId = some o' := by
    rw [lookup_addOutput hadded, if_pos rfl]
  have hrecord := ho.record
  rw [record?_of_read hread] at hrecord
  -- the record that was added is under a key without a record, so it is not this key's
  have hne : o'.keyId ≠ keyId.hexValue := by
    intro he
    rw [he, hrecord] at hnone
    cases hnone
  have hafter : (WalletFile.stored data').readOrCreate = .ok data' := rfl
  have hsame := hothers o'.keyId hne
  rw [record?_of_read hafter, record?_of_read hread, hsome, hnone] at hsame
  cases hsame

/-! ### Over pairs -/

/-- A reward the wallet is waiting for. -/
def pairReward : OutputData :=
  receivedOutput pairSender ⟨ofNat 10 7⟩ 1 (Consensus.reward 0) true

/-- A wallet of one reward. -/
def pairMiner : WalletData := ⟨Dictionary.single pairReward.keyId pairReward⟩

theorem rebuildable_pairMiner :
    Rebuildable pairSender ⟨ofNat 10 7⟩ ⟨.stored pairMiner, false, [], []⟩ pairReward := by
  constructor <;> decide +kernel

theorem rebuild_never_pairs :
    ¬ Rebuilds ⟨""⟩ pairSender .calm 8 1 ⟨ofNat 10 7⟩ ⟨.stored pairMiner, false, [], []⟩ pairReward :=
  rebuild_never ⟨""⟩ pairSender .calm 8 1 ⟨ofNat 10 7⟩ _ pairReward rebuildable_pairMiner

/-- A reward is asked for once more, now with fees, in a wallet that holds it: the call raises. -/
theorem rebuild_refused :
    Rebuildable pairSender ⟨ofNat 10 7⟩ ⟨.stored pairMiner, false, [], []⟩ pairReward ∧
      (receiveCoinbase ⟨""⟩ pairSender .calm ⟨8, 1, some ⟨ofNat 10 7⟩⟩).exec
          ⟨.stored pairMiner, false, [], []⟩
        = (.error .argument, ⟨.stored pairMiner, true, [], []⟩) ∧
      ¬ Rebuilds ⟨""⟩ pairSender .calm 8 1 ⟨ofNat 10 7⟩ ⟨.stored pairMiner, false, [], []⟩
        pairReward := by
  have hkeyed : pairMiner.WellKeyed := by
    intro k o hk
    have hmem := Dictionary.mem_entries_iff.mpr hk
    simp only [pairMiner, Dictionary.single, List.mem_singleton, Prod.mk.injEq] at hmem
    obtain ⟨rfl, rfl⟩ := hmem
    rfl
  have hlookup : pairMiner.outputs.lookup (Identifier.mk (ofNat 10 7)).hexValue = some pairReward := by
    decide +kernel
  have hraises : (receiveCoinbase ⟨""⟩ pairSender .calm ⟨8, 1, some ⟨ofNat 10 7⟩⟩).exec
        ⟨.stored pairMiner, false, [], []⟩
      = (.error .argument, ⟨.stored pairMiner, true, [], []⟩) :=
    rebuild_raises rfl hkeyed (by decide) hlookup ⟨by simp [Attempt.calm], by simp [Attempt.calm],
      by simp⟩ (by simp [Attempt.calm])
  refine ⟨rebuildable_pairMiner, hraises, ?_⟩
  rintro ⟨out, kern, after, w', hexec, -⟩
  rw [hraises] at hexec
  cases hexec

end WalletReceiver

end GrinDotnet
