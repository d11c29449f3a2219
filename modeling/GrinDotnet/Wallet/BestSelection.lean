import GrinDotnet.Lib.BestSubset
import GrinDotnet.Wallet.Selection

/-!
# Coins that cover an amount

`Select` orders the eligible outputs by key id, where its comment says by value, and its windows
do not slide: each begins where the one before it ended. Sets that no window contains are not tried,
and the outputs it falls back on are the last ones by key id, whatever they are worth.

Results:
1. `selectFrom_cases`, `selectWindow_cases`: what the search through the windows finds.
2. `complete_iff`: completeness is to cover the amount or to be worth most.
3. `select_complete_iff`: when `Select` is complete.
-/

namespace GrinDotnet

open Outcome

/-- The exact worth of outputs. -/
def worth (coins : List OutputData) : ℕ := exactSum (coins.map (·.value))

/-- The consecutive groups of outputs, of the size that is allowed. -/
def group (outputs : List OutputData) (maxOutputs : UInt32) (i : ℕ) : List OutputData :=
  (outputs.drop (i * maxOutputs.toNat)).take maxOutputs.toNat

/-- The last outputs, as many as allowed. -/
def lastOutputs (outputs : List OutputData) (maxOutputs : UInt32) : List OutputData :=
  outputs.drop (outputs.length - maxOutputs.toNat)

/-- The outputs before the last ones. -/
def otherOutputs (outputs : List OutputData) (maxOutputs : UInt32) : List OutputData :=
  outputs.take (outputs.length - maxOutputs.toNat)

namespace SelectLemmas

open WalletData

@[simp] theorem worth_nil : worth [] = 0 := rfl

@[simp] theorem worth_cons (o : OutputData) (l : List OutputData) :
    worth (o :: l) = o.value.toNat + worth l := by
  simp [worth]

theorem weight_eq_worth (l : List OutputData) :
    BestSubset.weight (fun o : OutputData => o.value.toNat) l = worth l := by
  simp [BestSubset.weight, worth, exactSum, Function.comp_def]

theorem worth_of_perm {l l' : List OutputData} (h : l.Perm l') : worth l = worth l' := by
  rw [← weight_eq_worth, ← weight_eq_worth, Multiset.coe_eq_coe.mpr h]

theorem worth_le_of_subperm {l l' : List OutputData} (h : l.Subperm l') : worth l ≤ worth l' := by
  rw [← weight_eq_worth, ← weight_eq_worth]
  exact BestSubset.weight_le_of_le (Multiset.coe_le.mpr h)

/-- The loop of `Select_from` stops only once the amount is covered. -/
theorem worth_takeUntil {amount selectedAmount : UInt64} {l : List OutputData}
    (hsum : selectedAmount.toNat + worth l < 2 ^ 64)
    (hcover : amount.toNat ≤ selectedAmount.toNat + worth l) :
    amount.toNat ≤ selectedAmount.toNat + worth (takeUntil amount selectedAmount l) := by
  induction l generalizing selectedAmount with
  | nil => exact hcover
  | cons o l ih =>
    rw [worth_cons] at hsum hcover
    unfold takeUntil
    split
    · have hadd : (selectedAmount + o.value).toNat = selectedAmount.toNat + o.value.toNat := by
        rw [UInt64.toNat_add, Nat.mod_eq_of_lt (by omega)]
      have hrest := @ih (selectedAmount + o.value) (by rw [hadd]; omega) (by rw [hadd]; omega)
      rw [hadd] at hrest
      rw [worth_cons]
      omega
    · next hselected =>
      have hle : amount.toNat ≤ selectedAmount.toNat :=
        UInt64.le_iff_toNat_le.mp (UInt64.not_lt.mp hselected)
      omega

theorem takeUntil_ne_nil {amount selectedAmount : UInt64} {l : List OutputData} (h : l ≠ []) :
    takeUntil amount selectedAmount l ≠ [] := by
  cases l with
  | nil => exact absurd rfl h
  | cons o l =>
    unfold takeUntil
    split <;> exact List.cons_ne_nil _ _

/-- `Select_from` adds up its outputs exactly. -/
theorem aggregate_worth {outputs : List OutputData} (hsome : outputs ≠ [])
    (hsum : worth outputs < 2 ^ 64) :
    ∃ total, aggregate (· + ·) (outputs.map (·.value)) = .ok total ∧
      total.toNat = worth outputs := by
  have hvalues : outputs.map (·.value) ≠ [] := by simpa using hsome
  obtain ⟨total, htotal, hexact⟩ := aggregate_add hvalues
  exact ⟨total, htotal, hexact.trans (Nat.mod_eq_of_lt hsum)⟩

/-- `Select_from` covers the amount if its outputs do, and else takes none of them. -/
theorem selectFrom_cases {amount : UInt64} {selectAll : Bool} {outputs : List OutputData}
    (hsome : outputs ≠ []) (hsum : worth outputs < 2 ^ 64) :
    (amount.toNat ≤ worth outputs ∧ ∃ coins, selectFrom amount selectAll outputs = .ok coins ∧
      coins ≠ [] ∧ amount.toNat ≤ worth coins) ∨
    (worth outputs < amount.toNat ∧ selectFrom amount selectAll outputs = .ok []) := by
  obtain ⟨total, htotal, hworth⟩ := aggregate_worth hsome hsum
  by_cases hcover : amount ≤ total
  · have hcover' : amount.toNat ≤ worth outputs := hworth ▸ UInt64.le_iff_toNat_le.mp hcover
    refine .inl ⟨hcover', ?_⟩
    have hfrom : selectFrom amount selectAll outputs =
        .ok (if selectAll then outputs else takeUntil amount 0 outputs) := by
      rw [selectFrom, htotal, ok_bind, if_pos hcover]
      rfl
    refine ⟨_, hfrom, ?_, ?_⟩
    · cases selectAll with
      | true => exact hsome
      | false => exact takeUntil_ne_nil hsome
    · cases selectAll with
      | true => exact hcover'
      | false =>
        have hloop := @worth_takeUntil amount 0 outputs (by simpa using hsum)
          (by simpa using hcover')
        simpa using hloop
  · refine .inr ⟨?_, ?_⟩
    · rw [← hworth]
      exact UInt64.lt_iff_toNat_lt.mp (UInt64.not_le.mp hcover)
    · rw [selectFrom, htotal, ok_bind, if_neg hcover]
      rfl

/-- The loop over the windows finds coins that cover the amount if one of the windows does. -/
theorem selectWindow_cases {amount : UInt64} {selectAll : Bool} {windows : List (List OutputData)}
    (hwindows : ∀ window ∈ windows, window ≠ [] ∧ worth window < 2 ^ 64) :
    ((∃ window ∈ windows, amount.toNat ≤ worth window) ∧
      ∃ coins, selectWindow amount selectAll windows = .ok (some coins) ∧
        amount.toNat ≤ worth coins) ∨
    ((∀ window ∈ windows, worth window < amount.toNat) ∧
      selectWindow amount selectAll windows = .ok none) := by
  induction windows with
  | nil => exact .inr ⟨by simp, rfl⟩
  | cons window windows ih =>
    obtain ⟨hsome, hsum⟩ := hwindows window List.mem_cons_self
    rcases @selectFrom_cases amount selectAll window hsome hsum with
      ⟨hcover, coins, hcoins, hne, hcovers⟩ | ⟨hshort, hnone⟩
    · refine .inl ⟨⟨window, List.mem_cons_self, hcover⟩, coins, ?_, hcovers⟩
      rw [selectWindow, hcoins, ok_bind, if_pos hne]
      rfl
    · have hnext : selectWindow amount selectAll (window :: windows)
          = selectWindow amount selectAll windows := by
        rw [selectWindow, hnone, ok_bind, if_neg (by simp)]
      rw [hnext]
      rcases ih fun w hw => hwindows w (List.mem_cons_of_mem _ hw) with
        ⟨⟨w, hw, hcover⟩, hfound⟩ | ⟨hall, hnone'⟩
      · exact .inl ⟨⟨w, List.mem_cons_of_mem _ hw, hcover⟩, hfound⟩
      · exact .inr ⟨List.forall_mem_cons.mpr ⟨hshort, hall⟩, hnone'⟩

/-- The search covers the amount if one of the consecutive groups of the outputs does. -/
theorem selectEligible_cases {amount : UInt64} {maxOutputs : UInt32} {defaultStrategy : Bool}
    {all : List OutputData} (hsome : all ≠ []) (hsum : worth all < 2 ^ 64)
    (hmax : 0 < maxOutputs.toNat) (hamount : 0 < amount.toNat) :
    ((∃ i, amount.toNat ≤ worth (group all maxOutputs i)) ∧
      ∃ coins, selectEligible amount maxOutputs defaultStrategy all = .ok (some coins) ∧
        amount.toNat ≤ worth coins) ∨
    ((¬ ∃ i, amount.toNat ≤ worth (group all maxOutputs i)) ∧
      selectEligible amount maxOutputs defaultStrategy all = .ok none) := by
  -- a group behind the end is empty and covers nothing
  have hinside : ∀ i, amount.toNat ≤ worth (group all maxOutputs i) →
      i * maxOutputs.toNat < all.length := by
    intro i hi
    by_contra hout
    rw [group, List.drop_eq_nil_of_le (Nat.not_lt.mp hout), List.take_nil, worth_nil] at hi
    omega
  unfold selectEligible
  by_cases hmany : maxOutputs.toNat < all.length
  · have hne : maxOutputs ≠ 0 := by
      rintro rfl
      exact absurd hmax (by decide)
    rw [if_pos hmany, if_neg hne]
    have hwindows : ∀ window ∈ tuples maxOutputs.toNat all.length all,
        window ≠ [] ∧ worth window < 2 ^ 64 := by
      intro window hwindow
      obtain ⟨i, hi, rfl⟩ := (mem_tuples_iff hmax le_rfl).mp hwindow
      refine ⟨?_, (worth_le_of_subperm ?_).trans_lt hsum⟩
      · rw [Ne, List.take_eq_nil_iff, List.drop_eq_nil_iff]
        omega
      · exact ((List.take_sublist _ _).trans (List.drop_sublist _ _)).subperm
    rcases @selectWindow_cases amount defaultStrategy _ hwindows with
      ⟨⟨window, hwindow, hcover⟩, hfound⟩ | ⟨hshort, hnone⟩
    · obtain ⟨i, -, rfl⟩ := (mem_tuples_iff hmax le_rfl).mp hwindow
      exact .inl ⟨⟨i, hcover⟩, hfound⟩
    · refine .inr ⟨?_, hnone⟩
      rintro ⟨i, hi⟩
      have hmem := (mem_tuples_iff hmax le_rfl).mpr ⟨i, hinside i hi, rfl⟩
      exact absurd hi (Nat.not_le.mpr (hshort _ hmem))
  · rw [if_neg hmany]
    have hfirst : group all maxOutputs 0 = all := by
      rw [group, Nat.zero_mul, List.drop_zero, List.take_of_length_le (Nat.not_lt.mp hmany)]
    have hwindows : ∀ window ∈ [all], window ≠ [] ∧ worth window < 2 ^ 64 := by
      intro window hwindow
      obtain rfl := List.mem_singleton.mp hwindow
      exact ⟨hsome, hsum⟩
    rcases @selectWindow_cases amount defaultStrategy _ hwindows with
      ⟨⟨window, hwindow, hcover⟩, hfound⟩ | ⟨hshort, hnone⟩
    · obtain rfl := List.mem_singleton.mp hwindow
      exact .inl ⟨⟨0, by rw [hfirst]; exact hcover⟩, hfound⟩
    · refine .inr ⟨?_, hnone⟩
      rintro ⟨i, hi⟩
      have hle : worth (group all maxOutputs i) ≤ worth all :=
        worth_le_of_subperm ((List.take_sublist _ _).trans (List.drop_sublist _ _)).subperm
      have hall := hshort all (List.mem_singleton_self all)
      omega

end SelectLemmas

namespace WalletData

open SelectLemmas

/-- Some set of at most so many of the outputs has this total. -/
def Reaches (outputs : List OutputData) (maxOutputs : UInt32) (total : ℕ) : Prop :=
  ∃ set : List OutputData, set.Subperm outputs ∧ set.length ≤ maxOutputs.toNat ∧ worth set = total

/-- Coins are complete: they cover the amount if any set of at most so many of the outputs does, and
else their total is the greatest of any such set. -/
structure Complete (outputs : List OutputData) (amount : UInt64) (maxOutputs : UInt32)
    (coins : List OutputData) : Prop where
  covers : (∃ total, Reaches outputs maxOutputs total ∧ amount.toNat ≤ total) →
    amount.toNat ≤ worth coins
  greatest : (¬ ∃ total, Reaches outputs maxOutputs total ∧ amount.toNat ≤ total) →
    IsGreatest {total | Reaches outputs maxOutputs total} (worth coins)

/-- Outputs that may be taken are complete when they cover the amount or are worth most. -/
theorem complete_iff {outputs coins : List OutputData} {amount : UInt64} {maxOutputs : UInt32}
    (hsub : coins.Subperm outputs) (hlength : coins.length ≤ maxOutputs.toNat) :
    Complete outputs amount maxOutputs coins ↔
      amount.toNat ≤ worth coins ∨
        ∀ total, Reaches outputs maxOutputs total → total ≤ worth coins := by
  have hself : Reaches outputs maxOutputs (worth coins) := ⟨coins, hsub, hlength, rfl⟩
  constructor
  · intro h
    by_cases hreach : ∃ total, Reaches outputs maxOutputs total ∧ amount.toNat ≤ total
    · exact .inl (h.covers hreach)
    · exact .inr fun total htotal => (h.greatest hreach).2 htotal
  · rintro (hcovers | hbest)
    · exact ⟨fun _ => hcovers, fun hreach => absurd ⟨_, hself, hcovers⟩ hreach⟩
    · refine ⟨?_, fun _ => ⟨hself, fun total htotal => hbest total htotal⟩⟩
      rintro ⟨total, htotal, hcovers⟩
      exact hcovers.trans (hbest total htotal)

/-- The last outputs are worth most exactly when none before them is worth more than one of them. -/
theorem last_best_iff {outputs : List OutputData} {maxOutputs : UInt32} :
    (∀ total, Reaches outputs maxOutputs total →
      total ≤ worth (lastOutputs outputs maxOutputs)) ↔
    ∀ x ∈ otherOutputs outputs maxOutputs,
      ∀ y ∈ lastOutputs outputs maxOutputs, x.value ≤ y.value := by
  generalize hinside : lastOutputs outputs maxOutputs = inside
  generalize houtside : otherOutputs outputs maxOutputs = outside
  have hperm : outputs.Perm (inside ++ outside) := by
    rw [← hinside, ← houtside]
    exact (List.perm_append_comm.trans (List.Perm.of_eq (List.take_append_drop _ _))).symm
  have hlength : inside.length = min maxOutputs.toNat outputs.length := by
    rw [← hinside, lastOutputs, List.length_drop]
    omega
  have hdominates : (∀ x ∈ outside, ∀ y ∈ inside, x.value ≤ y.value) ↔
      BestSubset.Dominates (fun o : OutputData => o.value.toNat) inside outside := by
    simp [BestSubset.Dominates, UInt64.le_iff_toNat_le]
  rw [hdominates]
  constructor
  · intro h
    refine BestSubset.dominates_of_best fun s => Quotient.inductionOn s fun l hl hcard => ?_
    have hsub : l.Subperm outputs := by
      have hle : l.Subperm (inside ++ outside) := Multiset.coe_le.mp hl
      exact hle.trans hperm.symm.subperm
    have hcount : l.length ≤ maxOutputs.toNat := by
      have hle : l.length ≤ inside.length := hcard
      omega
    have hbest := h (worth l) ⟨l, hsub, hcount, rfl⟩
    rw [← weight_eq_worth, ← weight_eq_worth] at hbest
    exact hbest
  · rintro h total ⟨l, hsub, hcount, rfl⟩
    have hle : (l : Multiset OutputData) ≤
        (inside : Multiset OutputData) + (outside : Multiset OutputData) :=
      Multiset.coe_le.mpr (hsub.trans hperm.subperm)
    have hcard : (l : Multiset OutputData).card ≤ (inside : Multiset OutputData).card := by
      have hall := hsub.length_le
      rw [Multiset.coe_card, Multiset.coe_card]
      omega
    have hweight := BestSubset.weight_le_of_dominates h hle hcard
    rw [weight_eq_worth, weight_eq_worth] at hweight
    exact hweight

/-- Nothing is worth most exactly when all outputs are worth nothing. -/
theorem nil_best_iff {outputs : List OutputData} {maxOutputs : UInt32}
    (hmax : 0 < maxOutputs.toNat) :
    (∀ total, Reaches outputs maxOutputs total → total ≤ worth []) ↔
      ∀ o ∈ outputs, o.value = 0 := by
  constructor
  · intro h o ho
    have hone := h o.value.toNat ⟨[o], List.singleton_subperm_iff.mpr ho, hmax, by simp⟩
    exact UInt64.toNat_inj.mp (Nat.le_zero.mp hone)
  · rintro h total ⟨l, hsub, -, rfl⟩
    have hall : worth outputs = 0 := by
      rw [worth, exactSum, List.map_map]
      refine List.sum_eq_zero fun v hv => ?_
      obtain ⟨o, ho, rfl⟩ := List.mem_map.mp hv
      simp [h o ho]
    rw [worth_nil, ← hall]
    exact worth_le_of_subperm hsub

/-- `Select` falls back on some of the outputs, and on none from a bound of 2^31 on. -/
theorem fallback_cases (outputs : List OutputData) {maxOutputs : UInt32} (hmax : maxOutputs ≠ 0) :
    (outputs.reverse.take maxOutputs.toInt32.toNatClampNeg).Subperm outputs ∧
      (outputs.reverse.take maxOutputs.toInt32.toNatClampNeg).length ≤ maxOutputs.toNat ∧
      (outputs.reverse.take maxOutputs.toInt32.toNatClampNeg = [] ↔
        ¬ (outputs ≠ [] ∧ maxOutputs.toNat < 2 ^ 31)) := by
  have hne : maxOutputs.toNat ≠ 0 := fun hz => hmax (UInt32.toNat_inj.mp hz)
  refine ⟨(List.take_sublist _ _).subperm.trans (List.reverse_perm outputs).subperm, ?_, ?_⟩
  · refine (List.length_take_le _ _).trans ?_
    rw [toNatClampNeg_toInt32]
    split
    · exact le_rfl
    · exact Nat.zero_le _
  · rw [List.take_eq_nil_iff, List.reverse_eq_nil_iff, toNatClampNeg_toInt32]
    by_cases hint : maxOutputs.toNat < 2 ^ 31
    · rw [if_pos hint, or_iff_right hne]
      exact ⟨fun hnil h => h.1 hnil, fun h => not_not.mp fun hsome => h ⟨hsome, hint⟩⟩
    · rw [if_neg hint]
      exact iff_of_true (Or.inl rfl) fun h => hint h.2

/-- What `Select` falls back on when no group of the eligible outputs covers the amount. -/
theorem complete_fallback_iff {outputs : List OutputData} {amount : UInt64} {maxOutputs : UInt32}
    (hmax : 0 < maxOutputs.toNat) (hamount : 0 < amount.toNat) :
    Complete outputs amount maxOutputs (outputs.reverse.take maxOutputs.toInt32.toNatClampNeg) ↔
      (maxOutputs.toNat < 2 ^ 31 ∧
        (amount.toNat ≤ worth (lastOutputs outputs maxOutputs) ∨
          ∀ x ∈ otherOutputs outputs maxOutputs,
            ∀ y ∈ lastOutputs outputs maxOutputs, x.value ≤ y.value)) ∨
      ∀ o ∈ outputs, o.value = 0 := by
  have hne : maxOutputs ≠ 0 := by
    rintro rfl
    exact absurd hmax (by decide)
  obtain ⟨hsub, hlength, -⟩ := fallback_cases outputs hne
  rw [complete_iff hsub hlength, toNatClampNeg_toInt32]
  by_cases hint : maxOutputs.toNat < 2 ^ 31
  · have hlast : worth (outputs.reverse.take maxOutputs.toNat)
        = worth (lastOutputs outputs maxOutputs) := by
      rw [List.take_reverse]
      exact worth_of_perm (List.reverse_perm _)
    rw [if_pos hint, hlast, last_best_iff]
    constructor
    · exact fun h => .inl ⟨hint, h⟩
    · rintro (⟨-, h⟩ | hzero)
      · exact h
      · refine .inr fun x hx y hy => ?_
        rw [hzero x (List.mem_of_mem_take hx)]
        exact UInt64.zero_le
  · -- the cast makes the number negative, and nothing is taken
    rw [if_neg hint, List.take_zero, nil_best_iff hmax, worth_nil]
    constructor
    · rintro (hcover | hzero)
      · omega
      · exact .inr hzero
    · rintro (⟨h, -⟩ | hzero)
      · exact absurd h hint
      · exact .inr hzero

/-- What `Select` answers covers the amount whenever a set of at most so many eligible outputs does,
and is worth most otherwise, exactly when one of the consecutive groups in order of the key ids
covers the amount, or the last outputs do, or none before the last ones is worth more than one of
them. From `2 ^ 31` on the last outputs are not taken. -/
theorem select_complete_iff (env : Env) (self : WalletData) (rootKeyId : Identifier)
    (amount currentHeight minimumConfirmations : UInt64) (maxOutputs : UInt32)
    (defaultStrategy : Bool) {all : List OutputData}
    (hall : self.eligible env rootKeyId currentHeight minimumConfirmations = all) (hsome : all ≠ [])
    (hsum : worth all < 2 ^ 64) (hmax : 1 ≤ maxOutputs) (hamount : 0 < amount) :
    (∃ coins, self.select env rootKeyId amount currentHeight minimumConfirmations maxOutputs
        defaultStrategy = .ok coins ∧ Complete all amount maxOutputs coins) ↔
      (∃ i, amount.toNat ≤ worth (group all maxOutputs i)) ∨
      (maxOutputs.toNat < 2 ^ 31 ∧
        (amount.toNat ≤ worth (lastOutputs all maxOutputs) ∨
          ∀ x ∈ otherOutputs all maxOutputs,
            ∀ y ∈ lastOutputs all maxOutputs, x.value ≤ y.value)) ∨
      ∀ o ∈ all, o.value = 0 := by
  have hmax' : 0 < maxOutputs.toNat := UInt32.le_iff_toNat_le.mp hmax
  have hamount' : 0 < amount.toNat := UInt64.lt_iff_toNat_lt.mp hamount
  rcases @selectEligible_cases amount maxOutputs defaultStrategy all hsome hsum hmax' hamount' with
    ⟨hgroup, coins, hfound, hcovers⟩ | ⟨hgroup, hnone⟩
  · have hselect : self.select env rootKeyId amount currentHeight minimumConfirmations maxOutputs
        defaultStrategy = .ok coins := by
      simp only [select, hall]
      rw [hfound]
      rfl
    refine iff_of_true ⟨coins, hselect, ?_⟩ (.inl hgroup)
    obtain ⟨hsub, hlength⟩ := select_subperm hselect
    rw [hall] at hsub
    exact (complete_iff hsub hlength).mpr (.inl hcovers)
  · have hselect : self.select env rootKeyId amount currentHeight minimumConfirmations maxOutputs
        defaultStrategy = .ok (all.reverse.take maxOutputs.toInt32.toNatClampNeg) := by
      simp only [select, hall]
      rw [hnone]
      rfl
    rw [or_iff_right hgroup, ← complete_fallback_iff hmax' hamount']
    constructor
    · rintro ⟨coins, hcoins, hcomplete⟩
      obtain rfl := Except.ok.inj (hselect.symm.trans hcoins)
      exact hcomplete
    · exact fun hcomplete => ⟨_, hselect, hcomplete⟩

/-- A coin under a key id with a value. -/
def valuedCoin (keyId : String) (value : UInt64) : OutputData := { minedCoin 1 with keyId, value }

/-- Three coins in order of their key ids. -/
def valuedCoins : List OutputData :=
  [valuedCoin "00000000000000000001" 10, valuedCoin "00000000000000000002" 5,
    valuedCoin "00000000000000000003" 10]

/-- A wallet of these coins. -/
def valuedWallet : WalletData :=
  ⟨⟨valuedCoins.map fun c => (c.keyId, c), by decide⟩⟩

/-- All three coins may be taken, and they cover the amount. -/
theorem select_complete_iff_valued :
    ∃ coins, valuedWallet.select Pairs.env Identifier.zero 20 1 1 3 true = .ok coins ∧
      Complete valuedCoins 20 3 coins := by
  have hall : valuedWallet.eligible Pairs.env Identifier.zero 1 1 = valuedCoins := by decide +kernel
  refine (select_complete_iff Pairs.env valuedWallet Identifier.zero 20 1 1 3 true hall (by decide)
    (by decide) (by decide) (by decide)).mpr (.inl ⟨0, ?_⟩)
  decide

/-- Two coins may be taken. The first and the third cover the amount, and the last two, which are
answered, do not. -/
theorem incomplete_selected :
    valuedWallet.eligible Pairs.env Identifier.zero 1 1 = valuedCoins ∧
      valuedWallet.select Pairs.env Identifier.zero 20 1 1 2 true
        = .ok [valuedCoin "00000000000000000003" 10, valuedCoin "00000000000000000002" 5] ∧
      ¬ Complete valuedCoins 20 2
        [valuedCoin "00000000000000000003" 10, valuedCoin "00000000000000000002" 5] := by
  refine ⟨by decide +kernel, by decide +kernel, fun h => ?_⟩
  have hreach : Reaches valuedCoins 2 20 :=
    ⟨[valuedCoin "00000000000000000001" 10, valuedCoin "00000000000000000003" 10],
      List.Sublist.subperm (by decide), by decide, by decide⟩
  have hcovers := h.covers ⟨20, hreach, by decide⟩
  revert hcovers
  decide

end WalletData

end GrinDotnet
