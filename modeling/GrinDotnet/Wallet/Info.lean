import GrinDotnet.Wallet.BestSelection
import GrinDotnet.Wallet.Sender

/-!
# The summary of a wallet

`Info.build_info` refreshes the wallet and prints running totals of the outputs under the keychain's
root key. Its figures are sums of words, and the one for what can be spent is a difference of two.

Results:
1. `eligibleToSpend_one_iff`: which outputs can be spent with one confirmation.
2. `toNat_spendable`: the difference is the worth of these outputs.
3. `spendableOutputs_perm`: they are the ones `Select` chooses from.
4. `buildInfo_eq_ok_iff`: when there is a report, and of what.
5. `spendable_reported`: every report has this worth in its line.
-/

namespace GrinDotnet

open Outcome WorldLemmas SelectLemmas

variable {env : Env}

namespace Info

/-- The running totals of `build_info`. -/
structure Totals where
  unspentTotal : UInt64
  unspentButLockedTotal : UInt64
  unconfirmedTotal : UInt64
  lockedTotal : UInt64
deriving DecidableEq

/-- The totals before the loop. -/
def Totals.zero : Totals := ⟨0, 0, 0, 0⟩

/-- The difference that is printed as spendable. -/
def Totals.spendable (t : Totals) : UInt64 := t.unspentTotal - t.unspentButLockedTotal

/-- The part of a round that looks for `Unspent`. -/
def addUnspent (currentHeight : UInt64) (t : Totals) (op : OutputData) : Totals :=
  if op.status = .unspent then
    { t with
      unspentTotal := t.unspentTotal + op.value
      unspentButLockedTotal :=
        if currentHeight < op.lockHeight then t.unspentButLockedTotal + op.value
        else t.unspentButLockedTotal }
  else t

/-- The part of a round that looks for `Unconfirmed`. -/
def addUnconfirmed (t : Totals) (op : OutputData) : Totals :=
  if op.status = .unconfirmed ∧ !op.isCoinbase then
    { t with unconfirmedTotal := t.unconfirmedTotal + op.value }
  else t

/-- The part of a round that looks for `Locked`. -/
def addLocked (t : Totals) (op : OutputData) : Totals :=
  if op.status = .locked then { t with lockedTotal := t.lockedTotal + op.value } else t

/-- A round of the loop. -/
def addOutput (currentHeight : UInt64) (t : Totals) (op : OutputData) : Totals :=
  addLocked (addUnconfirmed (addUnspent currentHeight t op) op) op

/-- The loop of `build_info` over the outputs of a root key. -/
def totals (rootKeyId : Identifier) (currentHeight : UInt64) (walletData : WalletData) : Totals :=
  (walletData.outputs.values.filter fun w => decide (w.rootKeyId = rootKeyId.hexValue)).foldl
    (addOutput currentHeight) .zero

/-- The height of the report: the node's, or the largest one of all records. -/
def currentHeight (tip : Except Exn UInt64) (walletData : WalletData) : UInt64 :=
  match tip with
  | .ok height => height
  | .error _ =>
    if walletData.outputs.values = [] then 0
    else (walletData.outputs.values.map (·.height)).foldl max 0

/-- The lines about the totals. -/
def lines (currentHeight : UInt64) (t : Totals) : List String :=
  ["Wallet Summary Info - Block Height: " ++ toString currentHeight,
    "----------------------------------------------",
    "",
    "Total:                          " ++ toString (t.unspentTotal + t.unconfirmedTotal),
    "Awaiting Confirmation:          " ++ toString t.unconfirmedTotal,
    "Confirmed but Still Locked:     " ++ toString t.unspentButLockedTotal,
    "Currently Spendable             " ++ toString t.spendable,
    "",
    "-----------------------------------------------",
    "",
    "Locked by previous transaction: " ++ toString t.lockedTotal]

/-- The lines about a node that did not answer. -/
def warning : List String :=
  ["",
    "WARNING - Showing local data only - Wallet was unable to contact a node to update and verify "
      ++ "the info shown here."]

/-- The closure of `build_info`, which only reads. -/
def summary (rootKeyId : Identifier) (tip : Except Exn UInt64) (walletData : WalletData) :
    List String :=
  let height := currentHeight tip walletData
  lines height (totals rootKeyId height walletData)

/-- What the surroundings do to one report. -/
structure InfoScript where
  refresh : Checker.RefreshScript
  readFault : Option Exn
  /-- The height of the chain's tip; every exception of the request is caught. -/
  tip : Except Exn UInt64

/-- `Info.build_info`, as the lines of its text. -/
def buildInfo (script : InfoScript) (config : WalletConfig) (kc : Keychain env) :
    WalletM (List String) := do
  let result ← Checker.refreshOutputs script.refresh config kc
  let text ← readWallet script.readFault fun walletData =>
    .ok (summary kc.rootKeyId script.tip walletData)
  return if result then text else text ++ warning

/-- The outputs of a root key that `eligible_to_spend` lets go with one confirmation. -/
def spendableOutputs (rootKeyId : Identifier) (currentHeight : UInt64) (walletData : WalletData) :
    List OutputData :=
  walletData.outputs.values.filter fun o =>
    decide (o.rootKeyId = rootKeyId.hexValue) && o.eligibleToSpend currentHeight 1

/-- The line about what can be spent has a figure. -/
def PrintsSpendable (text : List String) (figure : ℕ) : Prop :=
  text[6]? = some ("Currently Spendable             " ++ toString figure)

/-! ## The two filters -/

/-- With one confirmation, what is unspent and not locked can be spent at every height but the
last. -/
theorem eligibleToSpend_one_iff {o : OutputData} {height : UInt64}
    (hheight : height.toNat < 2 ^ 64 - 1) :
    o.eligibleToSpend height 1 = true ↔ o.status = .unspent ∧ ¬ height < o.lockHeight := by
  -- the height of the output cancels, whatever it is
  have hconfirmed : o.status = .unspent → 1 ≤ o.height + o.numConfirmations height := by
    intro hstatus
    have hsum : o.height + o.numConfirmations height = height + 1 := by
      simp only [OutputData.numConfirmations, hstatus, reduceCtorEq, if_false, false_and]
      grind
    rw [hsum, UInt64.le_iff_toNat_le, UInt64.toNat_add, Nat.mod_eq_of_lt (by simp; omega)]
    exact Nat.le_add_left 1 _
  unfold OutputData.eligibleToSpend
  cases hstatus : o.status with
  | unspent => simp [hconfirmed hstatus]
  | unconfirmed => simp
  | locked | spent => simp

/-- A round adds the value of an output that can be spent, and nothing for another one. -/
theorem spendable_addOutput {height : UInt64} (hheight : height.toNat < 2 ^ 64 - 1) (t : Totals)
    (o : OutputData) : (addOutput height t o).spendable =
      if o.eligibleToSpend height 1 then t.spendable + o.value else t.spendable := by
  have hlater : ∀ t, (addLocked (addUnconfirmed t o) o).spendable = t.spendable := by
    intro t
    unfold addLocked addUnconfirmed
    split <;> split <;> rfl
  rw [addOutput, hlater]
  simp only [eligibleToSpend_one_iff hheight]
  unfold addUnspent Totals.spendable
  cases hstatus : o.status with
  | unspent =>
    by_cases hlocked : height < o.lockHeight
    · -- what is locked is in both totals
      simp only [hlocked, if_true, not_true, and_false, if_false]
      grind
    · simp only [hlocked, if_true, not_false_eq_true, and_self, if_false]
      grind
  | unconfirmed | locked | spent => simp only [reduceCtorEq, false_and, if_false]

/-- The loop adds up the outputs that can be spent. -/
theorem spendable_foldl {height : UInt64} (hheight : height.toNat < 2 ^ 64 - 1)
    (l : List OutputData) (t : Totals) : (l.foldl (addOutput height) t).spendable =
      ((l.filter fun o => o.eligibleToSpend height 1).map (·.value)).foldl (· + ·) t.spendable := by
  induction l generalizing t with
  | nil => rfl
  | cons o l ih =>
    rw [List.foldl_cons, ih, spendable_addOutput hheight]
    cases heligible : o.eligibleToSpend height 1 with
    | true => simp [heligible]
    | false => simp [heligible]

/-- The figure for what can be spent is the worth of the outputs that can, as a word. -/
theorem toNat_spendable {height : UInt64} (hheight : height.toNat < 2 ^ 64 - 1)
    (rootKeyId : Identifier) (walletData : WalletData) :
    (totals rootKeyId height walletData).spendable.toNat =
      worth (spendableOutputs rootKeyId height walletData) % 2 ^ 64 := by
  rw [totals, spendable_foldl hheight, toNat_foldl_add, List.filter_filter]
  have hzero : Totals.zero.spendable.toNat = 0 := rfl
  have hsame : (fun o : OutputData => o.eligibleToSpend height 1 &&
      decide (o.rootKeyId = rootKeyId.hexValue)) = fun o =>
        decide (o.rootKeyId = rootKeyId.hexValue) && o.eligibleToSpend height 1 :=
    funext fun o => Bool.and_comm _ _
  rw [hzero, Nat.zero_add, hsame]
  rfl

/-- These outputs are the ones that `Select` chooses from. -/
theorem spendableOutputs_perm (rootKeyId : Identifier) (height : UInt64) (walletData : WalletData) :
    (spendableOutputs rootKeyId height walletData).Perm
      (walletData.eligible env rootKeyId height 1) :=
  (List.perm_insertionSort _ _).symm

/-! ## The report -/

/-- Without a node a refresh looks at the wallet and leaves it alone. -/
theorem refreshOutputs_of_unreachable (script : Checker.RefreshScript) (config : WalletConfig)
    {kc : Keychain env} {w : World} {data : WalletData} {s : Checker.Snapshot}
    (hfault : script.readFault = none) (hanswer : script.answer = .unreachable)
    (hread : w.file.readOrCreate = .ok data) (hs : Checker.snapshot kc data = .ok s) :
    (Checker.refreshOutputs script config kc).exec w = (.ok false, w) := by
  have hsnapshot : (readWallet script.readFault (Checker.snapshot kc)).exec w = (.ok s, w) := by
    rw [readWallet_of_read _ hfault hread, hs]
  rw [Checker.refreshOutputs, WalletM.exec_bind_of_ok hsnapshot, hanswer]
  rfl

/-- A report is made when the refresh answers and the wallet can be read after it. -/
theorem buildInfo_eq_ok_iff {script : InfoScript} {config : WalletConfig} {kc : Keychain env}
    {w w' : World} {text : List String} : (buildInfo script config kc).exec w = (.ok text, w') ↔
      ∃ result data, (Checker.refreshOutputs script.refresh config kc).exec w = (.ok result, w') ∧
        script.readFault = none ∧ w'.file.readOrCreate = .ok data ∧
        text = summary kc.rootKeyId script.tip data ++ if result then [] else warning := by
  constructor
  · intro h
    obtain ⟨result, w₁, hrefresh, h⟩ := WalletM.exec_bind_eq_ok.mp h
    obtain ⟨lines, w₂, hlines, h⟩ := WalletM.exec_bind_eq_ok.mp h
    obtain ⟨rfl, hfault, data, hread, hsummary⟩ := readWallet_eq_ok hlines
    obtain rfl := Except.ok.inj hsummary
    obtain ⟨htext, rfl⟩ := Prod.mk.inj h
    refine ⟨result, data, hrefresh, hfault, hread, ?_⟩
    rw [← Except.ok.inj htext]
    cases result <;> simp
  · rintro ⟨result, data, hrefresh, hfault, hread, rfl⟩
    have hlines := readWallet_of_read
      (fun walletData => .ok (summary kc.rootKeyId script.tip walletData)) hfault hread
    rw [buildInfo, WalletM.exec_bind_of_ok hrefresh, WalletM.exec_bind_of_ok hlines]
    cases result <;> simp

/-- The lines of the totals come before the warning. -/
theorem printsSpendable_summary {height : UInt64} {tip : Except Exn UInt64} {rootKeyId : Identifier}
    {walletData : WalletData} (hheight : currentHeight tip walletData = height) (rest : List String) :
    PrintsSpendable (summary rootKeyId tip walletData ++ rest)
      (totals rootKeyId height walletData).spendable.toNat := by
  subst hheight
  rfl

/-- What a report calls spendable is what can be selected at its height. -/
theorem spendable_reported {script : InfoScript} {config : WalletConfig} {kc : Keychain env}
    {w w' : World} {text : List String}
    (h : (buildInfo script config kc).exec w = (.ok text, w')) :
    ∃ data, w'.file.readOrCreate = .ok data ∧ ∀ height, currentHeight script.tip data = height →
      height.toNat < 2 ^ 64 - 1 →
      PrintsSpendable text (worth (spendableOutputs kc.rootKeyId height data) % 2 ^ 64) := by
  obtain ⟨result, data, -, -, hread, rfl⟩ := buildInfo_eq_ok_iff.mp h
  refine ⟨data, hread, fun height hcurrent hheight => ?_⟩
  rw [← toNat_spendable hheight]
  exact printsSpendable_summary hcurrent _

/-- A wallet of a coin that can be spent, one that is locked for a while, and one that was. -/
def pairMaturing : WalletData where
  outputs :=
    { entries := [pairCoin 1 10000000, { pairCoin 2 20000000 with lockHeight := 100 },
        (pairCoin 3 40000000).lock].map fun c => (c.keyId, c)
      nodup := by decide +kernel }

/-- The world of that wallet. -/
def pairMaturingWorld : World := ⟨.stored pairMaturing, false, [], []⟩

/-- A report at a height of three, without a node to refresh from. -/
def pairReport : InfoScript := ⟨⟨none, .unreachable, Attempt.calm⟩, none, .ok 3⟩

theorem spendable_reported_pairs : ∃ text,
    (buildInfo pairReport ⟨""⟩ pairSender).exec pairMaturingWorld = (.ok text, pairMaturingWorld) ∧
      PrintsSpendable text 10000000 := by
  have hread : pairMaturingWorld.file.readOrCreate = .ok pairMaturing := rfl
  have hsnapshot : (Checker.snapshot pairSender pairMaturing).isOk = true := by decide +kernel
  obtain ⟨s, hs⟩ := exists_of_isOk hsnapshot
  have hrefresh := refreshOutputs_of_unreachable pairReport.refresh ⟨""⟩ rfl rfl hread hs
  have hrun : (buildInfo pairReport ⟨""⟩ pairSender).exec pairMaturingWorld = _ :=
    buildInfo_eq_ok_iff.mpr ⟨false, pairMaturing, hrefresh, rfl, hread, rfl⟩
  obtain ⟨data, hdata, hprints⟩ := spendable_reported hrun
  obtain rfl := Except.ok.inj (hread.symm.trans hdata)
  have hprinted := hprints 3 rfl (by decide +kernel)
  have hworth : worth (spendableOutputs pairSender.rootKeyId 3 pairMaturing) % 2 ^ 64 = 10000000 := by
    decide +kernel
  rw [hworth] at hprinted
  exact ⟨_, hrun, hprinted⟩

end Info

end GrinDotnet
