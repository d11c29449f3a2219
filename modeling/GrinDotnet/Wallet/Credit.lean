import GrinDotnet.Lib.Word64
import GrinDotnet.Wallet.Burn
import GrinDotnet.Wallet.Rejection

/-!
# What a receiver credits itself with

`receive_transaction` takes the fee off the amount before it records and builds its output, and
`issue_burn_tx` takes it off the amount it burns. Both differences are unsigned.

Results:
1. `committed_receive`: the output of a received payment commits to the value that was recorded.
2. `creditsExactly_iff`: the recorded value and the fee make up the amount, unless a record is
   written for an amount below the fee.
-/

namespace GrinDotnet

open BigEndian Outcome WorldLemmas ReceiverLemmas SenderLemmas BuildLemmas

variable {env : Env}

namespace WalletReceiver

/-- Nothing keeps the call from storing a record: it gets the lock, the file can be read and written,
and the key of the next child exists and has no record. -/
structure Stores (kc : Keychain env) (attempt : Attempt) (w : World) : Prop where
  acquires : Acquires attempt w
  writes : attempt.fault = none ∨ attempt.fault = some .dispose
  key : ∃ data id, w.file.readOrCreate = .ok data ∧
    kc.deriveKeyId (data.nextChild kc.rootKeyId) = .ok id ∧ data.outputs.lookup id.hexValue = none

/-- A record that a call has put into the wallet. -/
def NewRecord (before after : World) (k : String) (r : OutputData) : Prop :=
  before.file.record? k = none ∧ after.file.record? k = some r

/-- A receiver credits itself with the amount less the fee, as numbers, in its wallet and in the
output of every transaction it answers. -/
structure CreditsExactly (config : WalletConfig) (kc : Keychain env) (attempt : Attempt)
    (amount : UInt64) (blinding : BlindingFactor env.secp) (tx : Transaction) (w : World) : Prop where
  recorded : ∀ k r,
    NewRecord w ((receiveTransaction config kc attempt amount blinding tx).exec w).2 k r →
      r.value.toNat + tx.fee.toNat = amount.toNat
  committed : ∀ txFinal w',
    (receiveTransaction config kc attempt amount blinding tx).exec w = (.ok txFinal, w') →
      ∃ keyId r out, NewRecord w w' keyId.hexValue r ∧ txFinal.outputs = tx.outputs ++ [out] ∧
        kc.commit r.value keyId = .ok out.commit ∧ r.value.toNat + tx.fee.toNat = amount.toNat

variable {config : WalletConfig} {kc : Keychain env} {attempt : Attempt} {amount : UInt64}
  {blinding : BlindingFactor env.secp} {tx : Transaction} {w : World}

theorem exists_addReceived_iff {outAmount : UInt64} {data : WalletData} :
    (∃ r, addReceived kc outAmount data = .ok r) ↔
      ∃ id, kc.deriveKeyId (data.nextChild kc.rootKeyId) = .ok id ∧
        data.outputs.lookup id.hexValue = none := by
  constructor
  · rintro ⟨⟨⟨keyId, derivation⟩, data'⟩, h⟩
    obtain ⟨hid, -, hadd⟩ := addReceived_eq_ok.mp h
    exact ⟨keyId, hid,
      (Dictionary.add_eq_some_iff.mp (WalletLemmas.addOutput_eq_ok_iff.mp hadd)).1⟩
  · rintro ⟨id, hid, hnone⟩
    obtain ⟨outputs, hadd⟩ := Dictionary.exists_add
      (receivedOutput kc id (data.nextChild kc.rootKeyId) outAmount false) hnone
    exact ⟨((id, data.nextChild kc.rootKeyId), ⟨outputs⟩),
      addReceived_eq_ok.mpr ⟨hid, rfl, WalletLemmas.addOutput_eq_ok_iff.mpr hadd⟩⟩

/-- The one new record of a wallet that was stored with a payment is the payment's. -/
theorem newRecord_stored_iff {outAmount : UInt64} {data data' : WalletData}
    {key : Identifier × UInt32} {w' : World} (hread : w.file.readOrCreate = .ok data)
    (hadd : addReceived kc outAmount data = .ok (key, data')) (hw' : w'.file = .stored data')
    (k : String) (r : OutputData) :
    NewRecord w w' k r ↔
      k = key.1.hexValue ∧ r = receivedOutput kc key.1 key.2 outAmount false := by
  obtain ⟨keyId, derivation⟩ := key
  have hadded := (addReceived_eq_ok.mp hadd).2.2
  have hnone : data.outputs.lookup keyId.hexValue = none :=
    (Dictionary.add_eq_some_iff.mp (WalletLemmas.addOutput_eq_ok_iff.mp hadded)).1
  have hafter : (WalletFile.stored data').readOrCreate = .ok data' := rfl
  unfold NewRecord
  rw [record?_of_read hread, hw', record?_of_read hafter, WalletLemmas.lookup_addOutput hadded]
  constructor
  · rintro ⟨hold, hnew⟩
    split at hnew
    · next hk => exact ⟨hk, (Option.some.inj hnew).symm⟩
    · rw [hold] at hnew
      cases hnew
  · rintro ⟨rfl, rfl⟩
    exact ⟨hnone, if_pos rfl⟩

theorem not_newRecord_of_file_eq {w' : World} (h : w'.file = w.file) (k : String) (r : OutputData) :
    ¬ NewRecord w w' k r := by
  rintro ⟨hold, hnew⟩
  rw [h, hold] at hnew
  cases hnew

/-- Behind its write, `receive_transaction` leaves the world alone. -/
theorem receiveTransaction_snd (hfee : recipientFee tx = tx.fee) :
    ((receiveTransaction config kc attempt amount blinding tx).exec w).2
      = ((withWallet config attempt (addReceived kc (amount - tx.fee))).exec w).2 := by
  rw [receiveTransaction_eq hfee, WalletM.exec_bind, hfee]
  cases (withWallet config attempt (addReceived kc (amount - tx.fee))).exec w with
  | mk result w₁ => cases result <;> rfl

/-- A new record is there because nothing kept the call from storing it. It holds the difference of
the amount and the fee. -/
theorem value_of_newRecord {k : String} {r : OutputData}
    (h : NewRecord w ((receiveTransaction config kc attempt amount blinding tx).exec w).2 k r) :
    recipientFee tx = tx.fee ∧ Stores kc attempt w ∧ r.value = amount - tx.fee := by
  by_cases hfee : recipientFee tx = tx.fee
  swap
  · refine absurd h (not_newRecord_of_file_eq ?_ k r)
    unfold receiveTransaction
    simp only [ne_eq, hfee, not_false_eq_true, if_true]
    rfl
  rw [receiveTransaction_snd hfee] at h
  have hcalled := called_withWallet config attempt (addReceived kc (amount - tx.fee)) w
  generalize (withWallet config attempt (addReceived kc (amount - tx.fee))).exec w = result
    at hcalled h
  cases hcalled with
  | refused | raised => exact absurd h (not_newRecord_of_file_eq rfl k r)
  | tore => cases h.2
  | undisposed e htrunc hfault hread hadd =>
    obtain ⟨id, hid, hnone⟩ := exists_addReceived_iff.mp ⟨_, hadd⟩
    obtain ⟨-, rfl⟩ := (newRecord_stored_iff hread hadd rfl k r).mp h
    exact ⟨hfee, ⟨htrunc.1, .inr hfault, _, id, hread, hid, hnone⟩, rfl⟩
  | done htrunc hfault hread hadd =>
    obtain ⟨id, hid, hnone⟩ := exists_addReceived_iff.mp ⟨_, hadd⟩
    obtain ⟨-, rfl⟩ := (newRecord_stored_iff hread hadd rfl k r).mp h
    exact ⟨hfee, ⟨htrunc.1, .inl hfault, _, id, hread, hid, hnone⟩, rfl⟩

/-- When nothing keeps the call from storing a record, there is a new one. -/
theorem exists_newRecord (hfee : recipientFee tx = tx.fee) (hstores : Stores kc attempt w) :
    ∃ k r, NewRecord w ((receiveTransaction config kc attempt amount blinding tx).exec w).2 k r := by
  obtain ⟨data, id, hread, hid, hnone⟩ := hstores.key
  obtain ⟨⟨key, data'⟩, hadd⟩ : ∃ r, addReceived kc (amount - tx.fee) data = .ok r :=
    exists_addReceived_iff.mpr ⟨id, hid, hnone⟩
  have hfile : ((withWallet config attempt (addReceived kc (amount - tx.fee))).exec w).2.file
      = .stored data' := by
    rw [withWallet_of_acquires hstores.acquires]
    cases hstores.writes with
    | inl hfault | inr hfault => simp [WalletM.exec, withLock, hfault, hread, hadd]
  rw [receiveTransaction_snd hfee]
  exact ⟨_, _, (newRecord_stored_iff hread hadd hfile _ _).mpr ⟨rfl, rfl⟩⟩

/-- The output of a received payment commits to the value that was recorded for it. -/
theorem committed_receive {txFinal : Transaction} {w' : World}
    (h : (receiveTransaction config kc attempt amount blinding tx).exec w = (.ok txFinal, w')) :
    ∃ keyId r out, NewRecord w w' keyId.hexValue r ∧ txFinal.outputs = tx.outputs ++ [out] ∧
      kc.commit r.value keyId = .ok out.commit := by
  obtain ⟨data, data', keyId, derivation, blind, hread, hadd, hbuild, rfl⟩ :=
    receiveTransaction_eq_ok h
  obtain ⟨ctx, hrun, houtputs⟩ := outputs_of_transaction hbuild
  rw [List.foldlM_cons, show Build.step _ (Build.initialTx tx) = .ok ⟨kc, tx, BlindSum.new⟩ from rfl,
    ok_bind] at hrun
  have hquiet : ∀ elem ∈ [Build.withExcess blinding], Quiet elem := by simp [quiet_withExcess]
  have hlast : ∀ elem ∈ ([] : List (Combinator env)), Quiet elem := fun _ h => nomatch h
  obtain ⟨out, hcommit, hout⟩ := outputs_of_output hquiet hlast hrun
  exact ⟨keyId, _, out, (newRecord_stored_iff hread hadd rfl _ _).mpr ⟨rfl, rfl⟩,
    houtputs.trans hout, hcommit⟩

/-- A receiver's credit and the fee make up the amount, unless it records an amount below the fee.
The output of a burn has the same law. -/
theorem creditsExactly_iff (config : WalletConfig) (kc : Keychain env) (attempt : Attempt)
    (amount : UInt64) (blinding : BlindingFactor env.secp) (tx : Transaction) (w : World) :
    (CreditsExactly config kc attempt amount blinding tx w ↔
      (recipientFee tx = tx.fee → Stores kc attempt w → tx.fee ≤ amount)) ∧
    ∀ coins inputs change changeKey txBurn,
      Sender.burnTransaction kc coins amount (sendParts coins inputs change changeKey) = .ok txBurn →
        ∃ burnt changeOut burnOut, txBurn.outputs = [changeOut, burnOut] ∧
          kc.commit burnt Identifier.zero = .ok burnOut.commit ∧
          (burnt.toNat + (Sender.sendFee coins).toNat = amount.toNat ↔
            Sender.sendFee coins ≤ amount) := by
  refine ⟨⟨fun hexact hfee hstores => ?_, fun h => ?_⟩, ?_⟩
  · obtain ⟨k, r, hnew⟩ := exists_newRecord hfee hstores
    have hlaw := hexact.recorded k r hnew
    rw [(value_of_newRecord hnew).2.2] at hlaw
    exact Word64.toNat_sub_add_iff.mp hlaw
  · have hrecorded : ∀ k r,
        NewRecord w ((receiveTransaction config kc attempt amount blinding tx).exec w).2 k r →
          r.value.toNat + tx.fee.toNat = amount.toNat := by
      intro k r hnew
      obtain ⟨hfee, hstores, hvalue⟩ := value_of_newRecord hnew
      rw [hvalue]
      exact Word64.toNat_sub_add_iff.mpr (h hfee hstores)
    refine ⟨hrecorded, fun txFinal w' hexec => ?_⟩
    obtain ⟨keyId, r, out, hnew, houtputs, hcommit⟩ := committed_receive hexec
    rw [hexec] at hrecorded
    exact ⟨keyId, r, out, hnew, houtputs, hcommit, hrecorded _ r hnew⟩
  · intro coins inputs change changeKey txBurn hburn
    obtain ⟨changeOut, burnOut, houtputs, -, hcommit⟩ := Sender.outputs_of_burnTransaction hburn
    exact ⟨_, changeOut, burnOut, houtputs, hcommit, Word64.toNat_sub_add_iff⟩

/-- A payment of five at a fee of five million is recorded as nearly all that a word can hold. -/
theorem credits_wrapped :
    ¬ CreditsExactly ⟨""⟩ Exchange.pairReceiver .calm 5 pairBlinding pairUnsigned
        ⟨.absent, false, [], []⟩ ∧
      (Sender.burnValue 5 [pairCoin 1 10000000]).toNat
        + (Sender.sendFee [pairCoin 1 10000000]).toNat ≠ (5 : UInt64).toNat := by
  constructor
  · intro h
    have hnew : NewRecord ⟨.absent, false, [], []⟩
        ((receiveTransaction ⟨""⟩ Exchange.pairReceiver .calm 5 pairBlinding pairUnsigned).exec
          ⟨.absent, false, [], []⟩).2 (toHex (ofNat 10 9))
        (receivedOutput Exchange.pairReceiver ⟨ofNat 10 9⟩ 1 (2 ^ 64 - 5000000 + 5) false) := by
      constructor <;> decide +kernel
    have hlaw := h.recorded _ _ hnew
    revert hlaw
    decide +kernel
  · decide +kernel

end WalletReceiver

end GrinDotnet
