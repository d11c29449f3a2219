import GrinDotnet.Wallet.BestSelection
import GrinDotnet.Wallet.SendSteps

/-!
# Too few funds to send

`build_send_tx` on a wallet whose eligible outputs do not cover the amount. The check of
`inputs_and_change` comes after two sums that raise on an empty sequence: the one over the eligible
outputs and the one over what `Select` falls back on, which the cast of `maxOutputs` can empty.

Results:
1. `selectEligible_of_short`, `exec_buildSendTxAt_of_short`: what the call raises.
2. `notEnoughFunds_iff`: when that is the wallet's own error.
-/

namespace GrinDotnet

open Outcome SelectLemmas WorldLemmas

variable {env : Env}

namespace Sender

/-- `Sender.build_send_tx`, its lock height apart from the current height. -/
def buildSendTxAt (script : SendScript) (config : WalletConfig) (kc : Keychain env)
    (args : SendArgs) (currentHeight lockHeight : UInt64) :
    WalletM (Transaction × BlindingFactor env.secp × List OutputData × Identifier) := do
  let coins ← readWallet script.selectFault (selectCoins kc args currentHeight)
  let (parts, changeKey) ← inputsAndChange config kc script.addChange coins args.amount
  let (tx, blind) ← WalletM.lift (Build.transaction (parts ++ [Build.withLockHeight lockHeight]) kc)
  return (tx, blind, coins, changeKey)

/-- A send locks its transaction to the current height. -/
theorem buildSendTx_eq (script : SendScript) (config : WalletConfig) (kc : Keychain env)
    (args : SendArgs) (currentHeight : UInt64) :
    buildSendTx script config kc args currentHeight =
      buildSendTxAt script config kc args currentHeight currentHeight := rfl

/-- The wallet's error for too few funds. -/
def notEnoughFunds : Exn := .wallet .notEnoughFunds none []

section Short

variable {all : List OutputData} {amount : UInt64} {maxOutputs : UInt32}
  (hsum : worth all < 2 ^ 64)
  (hshort : ¬ ∃ total, WalletData.Reaches all maxOutputs total ∧ amount.toNat ≤ total)

include hsum hshort

/-- The search finds nothing among some outputs, and raises on none. -/
theorem selectEligible_of_short (hmax : maxOutputs ≠ 0) (hamount : amount ≠ 0) (strategy : Bool) :
    WalletData.selectEligible amount maxOutputs strategy all =
      if all = [] then .error .invalidOperation else .ok none := by
  have hpos : 0 < maxOutputs.toNat :=
    Nat.pos_of_ne_zero fun hz => hmax (UInt32.toNat_inj.mp hz)
  have hamountpos : 0 < amount.toNat :=
    Nat.pos_of_ne_zero fun hz => hamount (UInt64.toNat_inj.mp hz)
  by_cases hnil : all = []
  · subst hnil
    simp [WalletData.selectEligible, WalletData.selectWindow, WalletData.selectFrom, aggregate]
  · rw [if_neg hnil]
    rcases @selectEligible_cases amount maxOutputs strategy all hnil hsum hpos hamountpos with
      ⟨⟨i, hi⟩, -⟩ | ⟨-, hnone⟩
    · refine absurd ⟨_, ⟨group all maxOutputs i, ?_, List.length_take_le _ _, rfl⟩, hi⟩ hshort
      exact ((List.take_sublist _ _).trans (List.drop_sublist _ _)).subperm
    · exact hnone

/-- The check of the funds refuses coins that are worth too little, and raises on none. -/
theorem fundsAndInputs_of_short (kc : Keychain env) {coins : List OutputData}
    (hsub : coins.Subperm all) (hlength : coins.length ≤ maxOutputs.toNat) :
    fundsAndInputs kc coins amount =
      .error (if coins = [] then .invalidOperation else notEnoughFunds) := by
  by_cases hnil : coins = []
  · rw [if_pos hnil, hnil]
    rfl
  · rw [if_neg hnil]
    obtain ⟨total, htotal, hworth⟩ :=
      aggregate_worth hnil ((worth_le_of_subperm hsub).trans_lt hsum)
    have hlt : total < amount := by
      rw [UInt64.lt_iff_toNat_lt, hworth]
      exact Nat.lt_of_not_le fun hcovers => hshort ⟨_, ⟨coins, hsub, hlength, rfl⟩, hcovers⟩
    rw [fundsAndInputs, htotal, ok_bind, if_pos hlt]
    rfl

end Short

section Send

variable {script : SendScript} {config : WalletConfig} {kc : Keychain env} {args : SendArgs}
  {currentHeight lockHeight : UInt64} {w : World} {data : WalletData} {all : List OutputData}
  (hread : w.file.readOrCreate = .ok data) (hfault : script.selectFault = none)
  (hall : data.eligible env kc.rootKeyId currentHeight args.minimumConfirmations = all)
  (hsum : worth all < 2 ^ 64) (hmax : args.maxOutputs ≠ 0) (hamount : args.amount ≠ 0)
  (hshort : ¬ ∃ total, WalletData.Reaches all args.maxOutputs total ∧ args.amount.toNat ≤ total)

include hread hfault hall hsum hmax hamount hshort

/-- With too few funds the call raises before it writes anything. -/
theorem exec_buildSendTxAt_of_short :
    (buildSendTxAt script config kc args currentHeight lockHeight).exec w =
      (.error (if all ≠ [] ∧ args.maxOutputs.toNat < 2 ^ 31 then notEnoughFunds
        else .invalidOperation), w) := by
  have hselect := selectEligible_of_short hsum hshort hmax hamount args.selectionStrategy
  have hwallet : (readWallet script.selectFault (selectCoins kc args currentHeight)).exec w =
      (selectCoins kc args currentHeight data, w) := readWallet_of_read _ hfault hread
  by_cases hnil : all = []
  · rw [if_pos hnil] at hselect
    have hcoins : selectCoins kc args currentHeight data = .error .invalidOperation := by
      rw [selectCoins, WalletData.select, hall, hselect]
      rfl
    rw [hcoins] at hwallet
    rw [if_neg fun h => h.1 hnil]
    exact WalletM.exec_bind_of_error hwallet
  · rw [if_neg hnil] at hselect
    have hcoins : selectCoins kc args currentHeight data =
        .ok (all.reverse.take args.maxOutputs.toInt32.toNatClampNeg) := by
      rw [selectCoins, WalletData.select, hall, hselect]
      rfl
    rw [hcoins] at hwallet
    obtain ⟨hsub, hlength, hempty⟩ := WalletData.fallback_cases all hmax
    have hfunds := fundsAndInputs_of_short hsum hshort kc hsub hlength
    rw [buildSendTxAt, WalletM.exec_bind_of_ok hwallet]
    refine WalletM.exec_bind_of_error (WalletM.exec_bind_of_error ?_)
    rw [WalletM.exec_lift, hfunds]
    by_cases hsome : all ≠ [] ∧ args.maxOutputs.toNat < 2 ^ 31
    · rw [if_pos hsome, if_neg fun h => hempty.mp h hsome]
    · rw [if_neg hsome, if_pos (hempty.mpr hsome)]

/-- The wallet's own error comes of it exactly when some output is eligible and the bound is that of
a signed word. -/
theorem notEnoughFunds_iff :
    (buildSendTxAt script config kc args currentHeight lockHeight).exec w =
        (.error notEnoughFunds, w) ↔
      all ≠ [] ∧ args.maxOutputs.toNat < 2 ^ 31 := by
  rw [exec_buildSendTxAt_of_short hread hfault hall hsum hmax hamount hshort]
  by_cases hsome : all ≠ [] ∧ args.maxOutputs.toNat < 2 ^ 31
  · rw [if_pos hsome]
    exact iff_of_true rfl hsome
  · rw [if_neg hsome]
    refine iff_of_false (fun h => ?_) hsome
    exact nomatch Except.error.inj (congrArg Prod.fst h)

end Send

/-- A send over pairs of an amount with a bound on the outputs. -/
def shortSend (amount : UInt64) (maxOutputs : UInt32) : SendArgs :=
  ⟨amount, 1, "stdout", maxOutputs, true⟩

theorem notEnoughFunds_iff_pairs :
    (buildSendTxAt pairScript ⟨"wallet"⟩ pairSender (shortSend 30000000 500) 10 10).exec pairWorld =
      (.error notEnoughFunds, pairWorld) := by
  have hall : pairWallet.eligible Pairs.env pairSender.rootKeyId 10 1 =
      [pairCoin 1 10000000, pairCoin 2 10000000] := by decide +kernel
  have hread : pairWorld.file.readOrCreate = .ok pairWallet := rfl
  refine (notEnoughFunds_iff hread rfl hall (by decide) (by decide) (by decide) ?_).mpr
    ⟨by simp, by decide⟩
  rintro ⟨total, ⟨coins, hsub, -, rfl⟩, hcovers⟩
  exact absurd (hcovers.trans (worth_le_of_subperm hsub)) (by decide)

/-- An empty wallet, and a bound of 2^31: the sequence has no elements. -/
theorem sequence_has_no_elements :
    ((buildSendTxAt pairScript ⟨"wallet"⟩ pairSender (shortSend 30000000 500) 10 10).exec
        ⟨.absent, false, [], []⟩).1 = .error .invalidOperation ∧
      ((buildSendTxAt pairScript ⟨"wallet"⟩ pairSender (shortSend 30000000 0x80000000) 10 10).exec
        pairWorld).1 = .error .invalidOperation ∧
      Exn.invalidOperation ≠ notEnoughFunds := by
  have herror : ∀ {α : Type} {x : Except Exn α} {e : Exn},
      (match x with | .error e' => decide (e' = e) | .ok _ => false) = true → x = .error e := by
    intro α x e h
    cases x with
    | error e' => exact congrArg Except.error (of_decide_eq_true h)
    | ok a => cases h
  exact ⟨herror (by decide +kernel), herror (by decide +kernel), by decide⟩

end Sender

end GrinDotnet
