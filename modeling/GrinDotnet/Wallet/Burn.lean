import GrinDotnet.Wallet.Sender

/-!
# Burning

`Sender.issue_burn_tx`: a payment to the zero identifier, whose key `Keychain.Burn_enabled` enters in
the table of overrides.

Results:
1. `burnEnabled_eq`: the burn key is 32 zero bytes, which no context takes for a key.
2. `burn_never`: no burn gets past its first step, whatever the wallet and the coins.
-/

namespace GrinDotnet

open BigEndian Outcome BuildLemmas SenderLemmas

variable {env : Env}

/-- `Keychain.Burn_enabled`. -/
def Keychain.burnEnabled (kc : Keychain env) (burnKeyId : Identifier) :
    Except Exn (Keychain env) := do
  let burnKey ← SecretKey.fromSlice env.secp (zeros 32).1
  return { kc with keyOverrides := Dictionary.single burnKeyId.hexValue burnKey }

namespace Sender

/-- The arguments of `issue_burn_tx`. -/
structure BurnArgs where
  amount : UInt64
  minimumConfirmations : UInt64
  maxOutputs : UInt32

/-- What the surroundings do to one burn. -/
structure BurnScript where
  /-- The height of the chain's tip. -/
  tip : Except Exn UInt64
  refresh : Checker.RefreshScript
  selectFault : Option Exn
  addChange : Attempt
  /-- The exception of the call that posts the transaction, if it fails. -/
  push : Option Exn

/-- The value of the burn output. -/
def burnValue (amount : UInt64) (coins : List OutputData) : UInt64 := amount - sendFee coins

/-- The transaction of a burn: the parts of `inputs_and_change` and the burn output, validated. -/
def burnTransaction (kc : Keychain env) (coins : List OutputData) (amount : UInt64)
    (parts : List (Combinator env)) : Except Exn Transaction := do
  let (txBurn, _) ←
    Build.transaction (parts ++ [Build.output (burnValue amount coins) Identifier.zero]) kc
  txBurn.validate env.secp kc.secp
  return txBurn

/-- `Sender.issue_burn_tx`, with the hex it posts as its answer. Of the response it looks at nothing
but the status code, which it logs. -/
def issueBurnTx (script : BurnScript) (config : WalletConfig) (kc : Keychain env)
    (args : BurnArgs) : WalletM String := do
  let kc ← WalletM.lift (kc.burnEnabled Identifier.zero)
  let currentHeight ← WalletM.lift script.tip
  let _ ← Checker.refreshOutputs script.refresh config kc
  let coins ← readWallet script.selectFault fun walletData =>
    walletData.select env kc.rootKeyId args.amount currentHeight args.minimumConfirmations
      args.maxOutputs false
  let (parts, _) ← inputsAndChange config kc script.addChange coins args.amount
  let txBurn ← WalletM.lift (burnTransaction kc coins args.amount parts)
  WalletM.lift (match script.push with
    | some e => .error e
    | none => .ok (toHex (txBurn.serVec env)))

/-- A burn goes through: the burn key is entered, the coins make up the parts, and the transaction
that is built of them is valid, with the change and the burn output for its outputs. -/
def Burns (config : WalletConfig) (kc : Keychain env) (attempt : Attempt)
    (coins : List OutputData) (amount : UInt64) (w : World) : Prop :=
  ∃ burner parts changeKey w' txBurn, kc.burnEnabled Identifier.zero = .ok burner ∧
    (inputsAndChange config burner attempt coins amount).exec w = (.ok (parts, changeKey), w') ∧
    burnTransaction burner coins amount parts = .ok txBurn ∧
    ∃ change burnt : UInt64, ∃ changeOut burnOut : Output,
      change.toNat = exactSum (coins.map (·.value)) - amount.toNat ∧
      burnt.toNat = amount.toNat - (sendFee coins).toNat ∧
      txBurn.outputs = [changeOut, burnOut] ∧
      burner.commit change changeKey = .ok changeOut.commit ∧
      burner.commit burnt Identifier.zero = .ok burnOut.commit

/-- `Burn_enabled` raises for every keychain and every key id: zero is no key. -/
theorem burnEnabled_eq (kc : Keychain env) (burnKeyId : Identifier) :
    kc.burnEnabled burnKeyId = .error (.exception "InvalidSecretKey") := by
  have hzero : asNat (zeros 32).1 = 0 := asNat_eq_zero fun _ hb => List.eq_of_mem_replicate hb
  rw [Keychain.burnEnabled, SecretKey.fromSlice_of_zero hzero]
  rfl

/-- No burn goes through. The call raises before it looks at the wallet. -/
theorem burn_never (script : BurnScript) (config : WalletConfig) (kc : Keychain env)
    (args : BurnArgs) (attempt : Attempt) (coins : List OutputData) (amount : UInt64) (w : World) :
    ¬ Burns config kc attempt coins amount w ∧
      (issueBurnTx script config kc args).exec w
        = (.error (.exception "InvalidSecretKey"), w) := by
  constructor
  · rintro ⟨burner, parts, changeKey, w', txBurn, henabled, -⟩
    rw [burnEnabled_eq] at henabled
    cases henabled
  · refine WalletM.exec_bind_of_error ?_
    rw [WalletM.exec_lift, burnEnabled_eq]

/-- What is built of the parts of `inputs_and_change` pays the change and the value of the burn. -/
theorem outputs_of_burnTransaction {kc : Keychain env} {coins : List OutputData}
    {amount change : UInt64} {inputs : List (UInt64 × Identifier)} {changeKey : Identifier}
    {txBurn : Transaction}
    (h : burnTransaction kc coins amount (sendParts coins inputs change changeKey) = .ok txBurn) :
    ∃ changeOut burnOut, txBurn.outputs = [changeOut, burnOut] ∧
      kc.commit change changeKey = .ok changeOut.commit ∧
      kc.commit (burnValue amount coins) Identifier.zero = .ok burnOut.commit := by
  obtain ⟨⟨built, blind⟩, hbuild, h⟩ := bind_eq_ok.mp h
  obtain ⟨⟨⟩, -, h⟩ := bind_eq_ok.mp h
  cases h
  obtain ⟨ctx, hrun, houtputs⟩ := outputs_of_transaction hbuild
  rw [sendParts, List.append_assoc] at hrun
  obtain ⟨ctx₁, hquiet, hrun⟩ := foldlM_append_eq_ok.mp hrun
  obtain ⟨ctx₂, hchange, hrun⟩ := foldlM_cons_eq_ok.mp hrun
  obtain ⟨ctx₃, hburn, hrun⟩ := foldlM_cons_eq_ok.mp hrun
  obtain rfl := Except.ok.inj hrun
  have hfirst : ∀ elem ∈ Build.withFee (sendFee coins) ::
      inputs.map (fun c => (Build.input c.1 c.2 : Combinator env)), Quiet elem := by
    simp only [List.mem_cons, List.mem_map]
    rintro elem (rfl | ⟨c, -, rfl⟩)
    · exact quiet_withFee _
    · exact quiet_input _ _
  obtain ⟨hkeychain, hnone⟩ := outputs_of_quiet hfirst hquiet
  obtain ⟨changeOut, hchangeCommit, hchangeOut⟩ := step_output_eq_ok hchange
  obtain ⟨burnOut, hburnCommit, hburnOut⟩ := step_output_eq_ok hburn
  rw [hkeychain] at hchangeCommit
  rw [keychain_of_step hchange, hkeychain] at hburnCommit
  refine ⟨changeOut, burnOut, ?_, hchangeCommit, hburnCommit⟩
  rw [houtputs, hburnOut, hchangeOut, hnone]
  rfl

/-- A wallet holds a coin of ten million, of which nine should be burned at a fee of eight: the
coin is selected, its total covers the amount and the amount the fee, and yet the burn fails. -/
theorem burn_fails_pairs :
    pairWallet.select Pairs.env pairSender.rootKeyId 9000000 10 1 1 false
        = .ok [pairCoin 1 10000000] ∧
      (sendFee [pairCoin 1 10000000]).toNat ≤ (9000000 : UInt64).toNat ∧
      (9000000 : UInt64).toNat ≤ exactSum ([pairCoin 1 10000000].map (·.value)) ∧
      ¬ Burns ⟨""⟩ pairSender Attempt.calm [pairCoin 1 10000000] 9000000
        ⟨.stored pairWallet, false, [], []⟩ := by
  refine ⟨by decide +kernel, by decide +kernel, by decide +kernel, ?_⟩
  rintro ⟨burner, parts, changeKey, w', txBurn, henabled, -⟩
  rw [burnEnabled_eq] at henabled
  cases henabled

end Sender

end GrinDotnet
