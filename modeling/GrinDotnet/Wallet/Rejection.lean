import GrinDotnet.Wallet.Exchange

/-!
# Rejected payments

`receive_transaction` records the output of a payment before it builds and validates the transaction,
and nothing takes the record back when one of these raises. The sender does take its change back when
the receiver refuses.

Results:
1. `receiveTransaction_eq`: the call in its two parts, of which only the first touches the wallet.
2. `rejected_untouched_iff`: when a payment that is refused leaves the outputs as they were.
-/

namespace GrinDotnet

open Outcome WorldLemmas ReceiverLemmas

variable {env : Env}

namespace WalletReceiver

/-- What `receive_transaction` does behind its write: build the transaction and validate it. -/
def completePayment (kc : Keychain env) (amount : UInt64) (blinding : BlindingFactor env.secp)
    (tx : Transaction) (keyId : Identifier) : Except Exn Transaction := do
  let (txFinal, _) ← Build.transaction [Build.initialTx tx, Build.withExcess blinding,
    Build.output (amount - recipientFee tx) keyId] kc
  txFinal.validate env.secp kc.secp
  return txFinal

/-- A record is written for a payment that has to be refused: the write is not whole, the lock file
cannot be removed, or what is built of the partial transaction and the recorded key is not valid. -/
structure LeavesRecord (kc : Keychain env) (attempt : Attempt) (amount : UInt64)
    (blinding : BlindingFactor env.secp) (tx : Transaction) (w : World) : Prop where
  fee : recipientFee tx = tx.fee
  truncates : Truncates attempt w
  recorded : ∃ data key data', w.file.readOrCreate = .ok data ∧
    addReceived kc (amount - recipientFee tx) data = .ok (key, data') ∧
    (attempt.fault = none → ∀ txFinal blind, Build.transaction [Build.initialTx tx,
      Build.withExcess blinding, Build.output (amount - recipientFee tx) key.1] kc
        = .ok (txFinal, blind) → txFinal.validate env.secp kc.secp ≠ .ok ())

variable {config : WalletConfig} {kc : Keychain env} {attempt : Attempt} {amount : UInt64}
  {blinding : BlindingFactor env.secp} {tx : Transaction}

theorem completePayment_eq_ok {keyId : Identifier} {txFinal : Transaction} :
    completePayment kc amount blinding tx keyId = .ok txFinal ↔
      ∃ blind, Build.transaction [Build.initialTx tx, Build.withExcess blinding,
          Build.output (amount - recipientFee tx) keyId] kc = .ok (txFinal, blind) ∧
        txFinal.validate env.secp kc.secp = .ok () := by
  unfold completePayment
  simp only [bind_eq_ok, pure_eq_ok, Except.ok.injEq, Prod.exists]
  constructor
  · rintro ⟨built, blind, hbuilt, ⟨⟩, hvalid, rfl⟩
    exact ⟨blind, hbuilt, hvalid⟩
  · rintro ⟨blind, hbuilt, hvalid⟩
    exact ⟨txFinal, blind, hbuilt, (), hvalid, rfl⟩

/-- A payment without a fee dispute is recorded and then completed. -/
theorem receiveTransaction_eq (hfee : recipientFee tx = tx.fee) (w : World) :
    (receiveTransaction config kc attempt amount blinding tx).exec w = (do
      let (keyId, _) ← withWallet config attempt (addReceived kc (amount - recipientFee tx))
      WalletM.lift (completePayment kc amount blinding tx keyId) : WalletM Transaction).exec w := by
  simp only [receiveTransaction]
  rw [if_neg (not_not.mpr hfee), WalletM.exec_bind, WalletM.exec_bind]
  rcases (withWallet config attempt (addReceived kc (amount - recipientFee tx))).exec w
    with ⟨e | ⟨keyId, derivation⟩, w₁⟩
  · rfl
  · simp only [completePayment]
    rw [WalletM.exec_bind, WalletM.exec_lift, WalletM.exec_lift]
    cases Build.transaction [Build.initialTx tx, Build.withExcess blinding,
      Build.output (amount - recipientFee tx) keyId] kc with
    | error e => rfl
    | ok built =>
      simp only [ok_bind]
      rw [WalletM.exec_bind, WalletM.exec_lift]
      cases built.1.validate env.secp kc.secp <;> rfl

/-- A record under a new key makes other outputs. -/
theorem outputs_ne_of_addReceived {outAmount : UInt64} {data data' : WalletData}
    {key : Identifier × UInt32} (h : addReceived kc outAmount data = .ok (key, data')) :
    data'.outputs ≠ data.outputs := by
  obtain ⟨keyId, derivation⟩ := key
  have hadd := (addReceived_eq_ok.mp h).2.2
  have hnone := (Dictionary.add_eq_some_iff.mp (WalletLemmas.addOutput_eq_ok_iff.mp hadd)).1
  have hsome := WalletLemmas.lookup_addOutput hadd
    (receivedOutput kc keyId derivation outAmount false).keyId
  intro heq
  rw [heq, hnone, if_pos rfl] at hsome
  cases hsome

/-- The outputs of a file that is read and written with one more record. -/
theorem outputs?_ne_of_addReceived {outAmount : UInt64} {data data' : WalletData}
    {key : Identifier × UInt32} {file : WalletFile} (hread : file.readOrCreate = .ok data)
    (h : addReceived kc outAmount data = .ok (key, data')) :
    (WalletFile.stored data').outputs? ≠ file.outputs? := by
  have hbefore : file.outputs? = some data.outputs := by
    rw [WalletFile.outputs?, hread]
  intro heq
  rw [hbefore] at heq
  exact outputs_ne_of_addReceived h (Option.some.inj heq)

/-- A payment that is refused leaves the outputs of the wallet as they were, except when it was
recorded before it was refused. -/
theorem rejected_untouched_iff (config : WalletConfig) (kc : Keychain env) (attempt : Attempt)
    (amount : UInt64) (blinding : BlindingFactor env.secp) (tx : Transaction) (w : World) :
    (∀ e w', (receiveTransaction config kc attempt amount blinding tx).exec w = (.error e, w') →
      w'.file.outputs? = w.file.outputs?) ↔
    ¬ LeavesRecord kc attempt amount blinding tx w := by
  by_cases hfee : recipientFee tx = tx.fee
  swap
  -- a fee dispute is raised before the wallet is opened
  · refine iff_of_true (fun e w' h => ?_) fun h => hfee h.fee
    simp only [receiveTransaction] at h
    rw [if_pos hfee] at h
    cases h
    rfl
  rw [receiveTransaction_eq hfee, WalletM.exec_bind]
  have hcalled := called_withWallet config attempt (addReceived kc (amount - recipientFee tx)) w
  generalize (withWallet config attempt (addReceived kc (amount - recipientFee tx))).exec w = r
    at hcalled
  cases hcalled with
  | refused e hacq =>
    refine iff_of_true (fun e' w' h => ?_) fun h => hacq h.truncates.1
    cases h
    rfl
  | raised e hacq hnone =>
    refine iff_of_true (fun e' w' h => ?_) fun h => ?_
    · cases h
      rfl
    · obtain ⟨data, key, data', hread, hadd, -⟩ := h.recorded
      exact hnone h.truncates data hread _ hadd
  | @tore e message onRead data r htrunc hfault hread hadd =>
    refine iff_of_false (fun h => ?_) (not_not.mpr ⟨hfee, htrunc, data, r.1, r.2, hread, hadd, ?_⟩)
    · -- the file was cut, so its outputs are lost
      have heq := h e _ rfl
      rw [show w.file.outputs? = some data.outputs by rw [WalletFile.outputs?, hread]] at heq
      cases heq
    · intro hnone
      rw [hfault] at hnone
      cases hnone
  | @undisposed e data r htrunc hfault hread hadd =>
    refine iff_of_false (fun h => ?_) (not_not.mpr ⟨hfee, htrunc, data, r.1, r.2, hread, hadd, ?_⟩)
    · exact outputs?_ne_of_addReceived hread hadd (h e _ rfl)
    · intro hnone
      rw [hfault] at hnone
      cases hnone
  | @done data r htrunc hfault hread hadd =>
    simp only [WalletM.exec_lift]
    cases hcomplete : completePayment kc amount blinding tx r.1.1 with
    | error e =>
      refine iff_of_false (fun h => ?_) (not_not.mpr ⟨hfee, htrunc, data, r.1, r.2, hread, hadd, ?_⟩)
      · exact outputs?_ne_of_addReceived hread hadd (h e _ rfl)
      · intro _ txFinal blind hbuilt hvalid
        have hok := completePayment_eq_ok.mpr ⟨blind, hbuilt, hvalid⟩
        rw [hcomplete] at hok
        cases hok
    | ok txFinal =>
      refine iff_of_true (fun e w' h => by cases h) fun h => ?_
      obtain ⟨data₁, key, data₁', hread₁, hadd₁, hall⟩ := h.recorded
      obtain rfl : data = data₁ := Except.ok.inj (hread.symm.trans hread₁)
      obtain rfl : r = (key, data₁') := Except.ok.inj (hadd.symm.trans hadd₁)
      obtain ⟨blind, hbuilt, hvalid⟩ := completePayment_eq_ok.mp hcomplete
      exact hall hfault txFinal blind hbuilt hvalid

/-- A payment of nothing, with the fee the receiver expects and no signature. -/
def pairUnsigned : Transaction := { Transaction.empty with fee := recipientFee Transaction.empty }

/-- A blinding sum over pairs. -/
def pairBlinding : BlindingFactor Pairs.env.secp := ⟨Pairs.secretKey 5 (by decide)⟩

/-- A payment whose signature does not fit is refused, and its record stays. -/
theorem rejected_record_stays :
    ((receiveTransaction ⟨""⟩ Exchange.pairReceiver .calm 9000000 pairBlinding pairUnsigned).exec
        ⟨.absent, false, [], []⟩).1 = .error (.exception "IncorrectSignature") ∧
      ((receiveTransaction ⟨""⟩ Exchange.pairReceiver .calm 9000000 pairBlinding pairUnsigned).exec
        ⟨.absent, false, [], []⟩).2.file.outputs? ≠ WalletFile.absent.outputs? := by
  constructor <;> decide +kernel

end WalletReceiver

end GrinDotnet
