import Mathlib.Data.List.Perm.Subperm
import GrinDotnet.Keychain.PairKeychain
import GrinDotnet.Wallet.WalletData

/-!
# Coins that may be spent

`Select` answers with eligible outputs, each at most once and no more than it may. Among the unspent
outputs, though, `eligible_to_spend` adds the height to the confirmations, and the sum is the height
after the current one whatever the output's own height is: the confirmations are never looked at.

Results:
1. `select_subperm`: where the coins come from, and how many there are.
2. `eligibleToSpend_iff`: what the eligibility comes down to.
3. `select_safe_iff`: for which wallets and heights every selection is safe.
-/

namespace GrinDotnet

open Outcome

/-! ## The coins -/

namespace SelectLemmas

open WalletData

theorem takeUntil_isPrefix (amount selectedAmount : UInt64) (l : List OutputData) :
    takeUntil amount selectedAmount l <+: l := by
  induction l generalizing selectedAmount with
  | nil => exact List.prefix_rfl
  | cons o l ih =>
    unfold takeUntil
    split
    · exact List.prefix_cons_inj o |>.mpr (ih _)
    · exact ⟨l, rfl⟩

theorem selectFrom_sublist {amount : UInt64} {selectAll : Bool} {outputs coins : List OutputData}
    (h : selectFrom amount selectAll outputs = .ok coins) : coins.Sublist outputs := by
  obtain ⟨total, -, h⟩ := bind_eq_ok.mp h
  split at h
  · obtain rfl := Except.ok.inj h
    split
    · exact List.Sublist.refl _
    · exact (takeUntil_isPrefix amount 0 outputs).sublist
  · obtain rfl := Except.ok.inj h
    exact List.nil_sublist _

/-- The windows are the consecutive groups of the outputs. -/
theorem mem_tuples_iff {α : Type} {groupCount fuel : ℕ} {l window : List α}
    (hcount : 0 < groupCount) (hfuel : l.length ≤ fuel) :
    window ∈ tuples groupCount fuel l ↔
      ∃ i, i * groupCount < l.length ∧ window = (l.drop (i * groupCount)).take groupCount := by
  induction fuel generalizing l with
  | zero =>
    obtain rfl := List.eq_nil_of_length_eq_zero (Nat.le_zero.mp hfuel)
    simp [tuples]
  | succ fuel ih =>
    cases l with
    | nil => simp [tuples]
    | cons a l =>
      have hrest : ((a :: l).drop groupCount).length ≤ fuel := by
        rw [List.length_drop]
        omega
      rw [tuples, List.mem_cons, ih hrest]
      constructor
      · rintro (rfl | ⟨i, hi, rfl⟩)
        · exact ⟨0, by simp, by simp⟩
        · rw [List.length_drop] at hi
          refine ⟨i + 1, by rw [Nat.succ_mul]; omega, ?_⟩
          rw [List.drop_drop, Nat.succ_mul, Nat.add_comm]
      · rintro ⟨i, hi, rfl⟩
        cases i with
        | zero => exact .inl (by simp)
        | succ i =>
          rw [Nat.succ_mul] at hi ⊢
          refine .inr ⟨i, by rw [List.length_drop]; omega, ?_⟩
          rw [List.drop_drop, Nat.add_comm]

/-- What the loop over the windows answers is taken from one of them. -/
theorem exists_window_of_selectWindow {amount : UInt64} {selectAll : Bool}
    {windows : List (List OutputData)} {coins : List OutputData}
    (h : selectWindow amount selectAll windows = .ok (some coins)) :
    ∃ window ∈ windows, coins.Sublist window := by
  induction windows with
  | nil => cases h
  | cons window windows ih =>
    obtain ⟨outputs2, houtputs2, h⟩ := bind_eq_ok.mp h
    split at h
    · obtain rfl := Option.some.inj (Except.ok.inj h)
      exact ⟨window, List.mem_cons_self, selectFrom_sublist houtputs2⟩
    · obtain ⟨window', hmem, hsub⟩ := ih h
      exact ⟨window', List.mem_cons_of_mem _ hmem, hsub⟩

theorem toNat_pos {n : UInt32} (h : n ≠ 0) : 0 < n.toNat :=
  Nat.pos_of_ne_zero fun hzero => h (UInt32.toNat_inj.mp hzero)

theorem selectEligible_sublist {amount : UInt64} {maxOutputs : UInt32} {defaultStrategy : Bool}
    {eligible coins : List OutputData}
    (h : selectEligible amount maxOutputs defaultStrategy eligible = .ok (some coins)) :
    coins.Sublist eligible ∧ coins.length ≤ maxOutputs.toNat := by
  unfold selectEligible at h
  split at h
  · split at h
    · cases h
    · next hmax =>
      -- the windows have the size that is allowed
      obtain ⟨window, hmem, hsub⟩ := exists_window_of_selectWindow h
      obtain ⟨i, -, rfl⟩ := (mem_tuples_iff (toNat_pos hmax) le_rfl).mp hmem
      refine ⟨hsub.trans ((List.take_sublist _ _).trans (List.drop_sublist _ _)), ?_⟩
      exact hsub.length_le.trans (List.length_take_le _ _)
  · next hfew =>
    obtain ⟨window, hmem, hsub⟩ := exists_window_of_selectWindow h
    obtain rfl := List.mem_singleton.mp hmem
    exact ⟨hsub, hsub.length_le.trans (Nat.not_lt.mp hfew)⟩

/-- The cast of the fallback keeps a number or, from `2 ^ 31` on, makes it nothing. -/
theorem toNatClampNeg_toInt32 (n : UInt32) :
    n.toInt32.toNatClampNeg = if n.toNat < 2 ^ 31 then n.toNat else 0 := by
  have hn : n.toNat < 2 ^ 32 := n.toNat_lt
  show n.toBitVec.toInt.toNat = _
  rw [BitVec.toInt_eq_toNat_cond, UInt32.toNat_toBitVec]
  split <;> split <;> omega

/-- What `Select` answers is part of the eligible outputs, and no more than allowed. -/
theorem select_subperm {env : Env} {d : WalletData} {rootKeyId : Identifier}
    {amount currentHeight minimumConfirmations : UInt64} {maxOutputs : UInt32}
    {defaultStrategy : Bool} {coins : List OutputData}
    (h : d.select env rootKeyId amount currentHeight minimumConfirmations maxOutputs
      defaultStrategy = .ok coins) :
    coins.Subperm (d.eligible env rootKeyId currentHeight minimumConfirmations) ∧
      coins.length ≤ maxOutputs.toNat := by
  obtain ⟨found, hfound, h⟩ := bind_eq_ok.mp h
  cases found with
  | none =>
    obtain rfl := Except.ok.inj h
    refine ⟨(List.take_sublist _ _).subperm.trans (List.reverse_perm _).subperm, ?_⟩
    refine (List.length_take_le _ _).trans ?_
    rw [toNatClampNeg_toInt32]
    split
    · exact le_rfl
    · exact Nat.zero_le _
  | some outputs2 =>
    obtain rfl := Except.ok.inj h
    obtain ⟨hsub, hlength⟩ := selectEligible_sublist hfound
    exact ⟨hsub.subperm, hlength⟩

end SelectLemmas

namespace OutputData

/-- The height and the confirmations of an unspent output always add up to the next height. -/
theorem height_add_numConfirmations {o : OutputData} (h : o.status = .unspent)
    (currentHeight : UInt64) : o.height + o.numConfirmations currentHeight = currentHeight + 1 := by
  unfold numConfirmations
  rw [if_neg (by simp [h]), if_neg (by simp [h]), UInt64.add_comm 1, ← UInt64.add_assoc,
    UInt64.add_comm o.height, UInt64.sub_add_cancel]

/-- What `eligible_to_spend` comes down to: the confirmations of an unspent output do not count. -/
theorem eligibleToSpend_iff {o : OutputData} {currentHeight minimumConfirmations : UInt64} :
    o.eligibleToSpend currentHeight minimumConfirmations = true ↔
      o.lockHeight ≤ currentHeight ∧
        ((o.status = .unspent ∧ minimumConfirmations ≤ currentHeight + 1) ∨
          (o.status = .unconfirmed ∧ o.isCoinbase = false ∧ minimumConfirmations = 0)) := by
  unfold eligibleToSpend
  cases hstatus : o.status with
  | spent => simp
  | locked => simp
  | unspent =>
    rw [height_add_numConfirmations hstatus]
    simp [UInt64.not_lt]
  | unconfirmed =>
    simp [UInt64.not_lt]
    tauto

/-- An output has at least so many confirmations at a height. -/
def Confirmed (o : OutputData) (currentHeight minimumConfirmations : UInt64) : Prop :=
  minimumConfirmations ≠ 0 → o.height ≤ currentHeight ∧
    minimumConfirmations.toNat ≤ currentHeight.toNat - o.height.toNat + 1

end OutputData

/-! ## Safety -/

variable {env : Env}

namespace WalletData

/-- A selection is safe: it takes outputs of the wallet under the root key, each at most once, no
more than allowed, and only such that may be spent at the height. -/
structure SafeSelection (data : WalletData) (rootKeyId : Identifier)
    (currentHeight minimumConfirmations : UInt64) (maxOutputs : UInt32) (coins : List OutputData) :
    Prop where
  subperm : coins.Subperm data.outputs.values
  once : data.WellKeyed → (coins.map (·.keyId)).Nodup
  length : coins.length ≤ maxOutputs.toNat
  root : ∀ c ∈ coins, c.rootKeyId = rootKeyId.hexValue
  free : ∀ c ∈ coins, c.status ≠ .spent ∧ c.status ≠ .locked
  unlocked : ∀ c ∈ coins, c.lockHeight ≤ currentHeight
  unconfirmed : ∀ c ∈ coins, c.status = .unconfirmed →
    c.isCoinbase = false ∧ minimumConfirmations = 0
  confirmed : ∀ c ∈ coins, c.status = .unspent → c.Confirmed currentHeight minimumConfirmations

/-- In a wallet that files every output under its key id, no two of its outputs have the same. -/
theorem nodup_keyId {self : WalletData} {coins : List OutputData} (hkeyed : self.WellKeyed)
    (h : coins.Subperm self.outputs.values) : (coins.map (·.keyId)).Nodup := by
  have hkeys : self.outputs.values.map (·.keyId) = self.outputs.keys := by
    rw [Dictionary.values, Dictionary.keys, List.map_map]
    exact List.map_congr_left fun e he => hkeyed e.1 e.2 (Dictionary.mem_entries_iff.mp he)
  have hall : (self.outputs.values.map (·.keyId)).Nodup := by
    rw [hkeys]
    exact self.outputs.nodup
  obtain ⟨l, hperm, hsub⟩ := h
  exact ((hperm.map _).nodup_iff).mp (hall.sublist (hsub.map _))

/-- Whatever unspent output under the root key is old enough for `eligible_to_spend` has the
confirmations. -/
def Mature (self : WalletData) (rootKeyId : Identifier)
    (currentHeight minimumConfirmations : UInt64) : Prop :=
  ∀ o ∈ self.outputs.values, o.rootKeyId = rootKeyId.hexValue → o.status = .unspent →
    o.lockHeight ≤ currentHeight → minimumConfirmations ≤ currentHeight + 1 →
    o.Confirmed currentHeight minimumConfirmations

theorem mem_eligible {self : WalletData} {rootKeyId : Identifier}
    {currentHeight minimumConfirmations : UInt64} {o : OutputData} :
    o ∈ self.eligible env rootKeyId currentHeight minimumConfirmations ↔
      o ∈ self.outputs.values ∧ o.rootKeyId = rootKeyId.hexValue ∧
        o.eligibleToSpend currentHeight minimumConfirmations = true := by
  rw [eligible, List.mem_insertionSort, List.mem_filter, Bool.and_eq_true, decide_eq_true_iff]

/-- On a wallet whose unspent outputs are mature, every selection is safe. -/
theorem safe_of_mature {self : WalletData} {rootKeyId : Identifier}
    {amount currentHeight minimumConfirmations : UInt64} {maxOutputs : UInt32}
    {defaultStrategy : Bool} {coins : List OutputData}
    (hmature : self.Mature rootKeyId currentHeight minimumConfirmations)
    (h : self.select env rootKeyId amount currentHeight minimumConfirmations maxOutputs
      defaultStrategy = .ok coins) :
    self.SafeSelection rootKeyId currentHeight minimumConfirmations maxOutputs coins := by
  obtain ⟨hsub, hlength⟩ := SelectLemmas.select_subperm h
  have hmem : ∀ c ∈ coins, c ∈ self.outputs.values ∧ c.rootKeyId = rootKeyId.hexValue ∧
      c.lockHeight ≤ currentHeight ∧
        ((c.status = .unspent ∧ minimumConfirmations ≤ currentHeight + 1) ∨
          (c.status = .unconfirmed ∧ c.isCoinbase = false ∧ minimumConfirmations = 0)) := by
    intro c hc
    obtain ⟨hvalues, hroot, heligible⟩ := mem_eligible.mp (hsub.subset hc)
    exact ⟨hvalues, hroot, OutputData.eligibleToSpend_iff.mp heligible⟩
  have hvalues : coins.Subperm self.outputs.values :=
    hsub.trans ((List.perm_insertionSort _ _).subperm.trans List.filter_sublist.subperm)
  constructor
  case subperm => exact hvalues
  case once => exact fun hkeyed => nodup_keyId hkeyed hvalues
  case length => exact hlength
  case root => exact fun c hc => (hmem c hc).2.1
  case free =>
    intro c hc
    obtain ⟨-, -, -, ⟨hstatus, -⟩ | ⟨hstatus, -⟩⟩ := hmem c hc <;> simp [hstatus]
  case unlocked => exact fun c hc => (hmem c hc).2.2.1
  case unconfirmed =>
    intro c hc hunconfirmed
    obtain ⟨-, -, -, ⟨hstatus, -⟩ | ⟨-, hrest⟩⟩ := hmem c hc
    · rw [hunconfirmed] at hstatus
      cases hstatus
    · exact hrest
  case confirmed =>
    intro c hc hunspent
    obtain ⟨hvalues, hroot, hlock, ⟨-, hmin⟩ | ⟨hstatus, -⟩⟩ := hmem c hc
    · exact hmature c hvalues hroot hunspent hlock hmin
    · rw [hunspent] at hstatus
      cases hstatus

/-- Asked for nothing and allowed enough, `Select` answers with every eligible output. -/
theorem select_zero {self : WalletData} {rootKeyId : Identifier}
    {currentHeight minimumConfirmations : UInt64} {maxOutputs : UInt32}
    (hsome : self.eligible env rootKeyId currentHeight minimumConfirmations ≠ [])
    (hfew : (self.eligible env rootKeyId currentHeight minimumConfirmations).length
      ≤ maxOutputs.toNat) :
    self.select env rootKeyId 0 currentHeight minimumConfirmations maxOutputs true
      = .ok (self.eligible env rootKeyId currentHeight minimumConfirmations) := by
  generalize hall : self.eligible env rootKeyId currentHeight minimumConfirmations = all
    at hsome hfew
  have hvalues : all.map (·.value) ≠ [] := by simpa using hsome
  obtain ⟨total, htotal, -⟩ := aggregate_add hvalues
  have hfrom : selectFrom 0 true all = .ok all := by
    rw [selectFrom, htotal, ok_bind, if_pos UInt64.zero_le]
    rfl
  have hfound : selectEligible 0 maxOutputs true all = .ok (some all) := by
    rw [selectEligible, if_neg (Nat.not_lt.mpr hfew), selectWindow, hfrom, ok_bind, if_pos hsome]
    rfl
  simp only [select, hall]
  rw [hfound]
  rfl

/-- Every selection from the wallet at the height is safe. -/
def SafelySelects (env : Env) (self : WalletData) (rootKeyId : Identifier)
    (currentHeight minimumConfirmations : UInt64) : Prop :=
  ∀ (amount : UInt64) (maxOutputs : UInt32) (defaultStrategy : Bool) (coins : List OutputData),
    self.select env rootKeyId amount currentHeight minimumConfirmations maxOutputs
      defaultStrategy = .ok coins →
    self.SafeSelection rootKeyId currentHeight minimumConfirmations maxOutputs coins

/-- Every selection from a wallet is safe when its unspent outputs are mature, and only then: an
immature one is selected when nothing is asked for and enough is allowed. The runtime counts the
outputs of a wallet below `2 ^ 31`. -/
theorem select_safe_iff (env : Env) (self : WalletData) (rootKeyId : Identifier)
    (currentHeight minimumConfirmations : UInt64) :
    (self.Mature rootKeyId currentHeight minimumConfirmations →
      self.SafelySelects env rootKeyId currentHeight minimumConfirmations) ∧
    (self.outputs.values.length < 2 ^ 31 →
      self.SafelySelects env rootKeyId currentHeight minimumConfirmations →
      self.Mature rootKeyId currentHeight minimumConfirmations) := by
  refine ⟨fun hmature amount maxOutputs defaultStrategy coins => safe_of_mature hmature, ?_⟩
  intro hcount hsafe o hvalues hroot hunspent hlock hmin
  have heligible : o ∈ self.eligible env rootKeyId currentHeight minimumConfirmations :=
    mem_eligible.mpr ⟨hvalues, hroot,
      OutputData.eligibleToSpend_iff.mpr ⟨hlock, .inl ⟨hunspent, hmin⟩⟩⟩
  have hlength : (self.eligible env rootKeyId currentHeight minimumConfirmations).length
      ≤ (UInt32.ofNat (2 ^ 31)).toNat := by
    rw [eligible, List.length_insertionSort]
    exact (List.length_filter_le _ _).trans hcount.le
  have hselect := select_zero (List.ne_nil_of_mem heligible) hlength
  exact (hsafe 0 _ true _ hselect).confirmed o heligible hunspent

/-- A coin from the block at a height. -/
def minedCoin (height : UInt64) : OutputData where
  rootKeyId := Identifier.zero.hexValue
  keyId := "00000000000000000001"
  nChild := 1
  value := 60
  status := .unspent
  height
  lockHeight := 0
  isCoinbase := false

/-- A wallet of such a coin. -/
def minedWallet (height : UInt64) : WalletData :=
  ⟨⟨[("00000000000000000001", minedCoin height)], by simp⟩⟩

/-- Ten confirmations, asked for and there. -/
theorem select_safe_iff_mined :
    (minedWallet 91).SafelySelects Pairs.env Identifier.zero 100 10 := by
  refine (select_safe_iff Pairs.env (minedWallet 91) Identifier.zero 100 10).1 ?_
  intro o ho _ _ _ _ _
  obtain rfl : o = minedCoin 91 := by simpa [minedWallet, Dictionary.values] using ho
  decide

/-- Ten confirmations are asked for, and a coin with one is selected. -/
theorem immature_selected :
    (minedWallet 100).select Pairs.env Identifier.zero 60 100 10 1 true = .ok [minedCoin 100] ∧
      ¬ (minedWallet 100).SafeSelection Identifier.zero 100 10 1 [minedCoin 100] := by
  refine ⟨rfl, fun h => ?_⟩
  have hconfirmed := (h.confirmed (minedCoin 100) List.mem_cons_self rfl (by decide)).2
  revert hconfirmed
  decide

end WalletData

end GrinDotnet
