import Mathlib.Algebra.Ring.Int.Defs
import Mathlib.Algebra.Ring.Nat

/-!
# 64-bit words, signed and unsigned

The values of a 64-bit word under the two readings and the casts between them, as integers. `abs` is
the runtime's checked absolute value, which the least signed word does not have.
-/

namespace Word64

/-- Reading an unsigned word as a signed one. -/
theorem toInt_toInt64 (x : UInt64) :
    x.toInt64.toInt = if x.toNat < 2 ^ 63 then (x.toNat : ℤ) else (x.toNat : ℤ) - 2 ^ 64 := by
  have h : x.toInt64.toInt = x.toBitVec.toInt := rfl
  have hn : x.toBitVec.toNat = x.toNat := rfl
  rw [h, BitVec.toInt_eq_toNat_cond, hn]
  split <;> split <;> omega

/-- Reading a signed word as an unsigned one. -/
theorem toNat_toUInt64 (x : Int64) :
    (x.toUInt64.toNat : ℤ) = if 0 ≤ x.toInt then x.toInt else x.toInt + 2 ^ 64 := by
  have h := toInt_toInt64 x.toUInt64
  have hx : x.toUInt64.toInt64 = x := rfl
  have hlt : x.toUInt64.toNat < 2 ^ 64 := x.toUInt64.toNat_lt
  rw [hx] at h
  split at h <;> split <;> omega

/-- `Math.Abs`: the least word has no absolute value. -/
def abs (x : Int64) : Option Int64 :=
  if x = Int64.minValue then none else some (if x < 0 then -x else x)

theorem abs_eq_none_iff {x : Int64} : abs x = none ↔ x = Int64.minValue := by
  unfold abs
  split <;> simp_all

/-- The absolute value, read as an unsigned word, is the one of the integers. -/
theorem toNat_abs {x y : Int64} (h : abs x = some y) : y.toUInt64.toNat = x.toInt.natAbs := by
  have hlo : -2 ^ 63 ≤ x.toInt := x.le_toInt
  have hhi : x.toInt < 2 ^ 63 := x.toInt_lt
  unfold abs at h
  split at h
  · cases h
  · next hmin =>
    have hne : x.toInt ≠ -2 ^ 63 := fun he =>
      hmin (Int64.toInt_inj.mp (he.trans Int64.toInt_minValue.symm))
    have hsign : x < 0 ↔ x.toInt < 0 := Int64.lt_iff_toInt_lt
    have hy := toNat_toUInt64 y
    obtain rfl := Option.some.inj h
    by_cases hneg : x < 0
    · have hbmod : (-x.toInt).bmod (2 ^ 64) = -x.toInt := Int.bmod_eq_of_le (by omega) (by omega)
      rw [if_pos hneg, Int64.toInt_neg, hbmod] at hy
      rw [if_pos hneg]
      have := hsign.mp hneg
      split at hy <;> omega
    · rw [if_neg hneg] at hy ⊢
      have : ¬ x.toInt < 0 := fun h => hneg (hsign.mpr h)
      split at hy <;> omega

/-- A difference of unsigned words is the one of the numbers exactly when it does not wrap. -/
theorem toNat_sub_add_iff {a b : UInt64} : (a - b).toNat + b.toNat = a.toNat ↔ b ≤ a := by
  have ha : a.toNat < 2 ^ 64 := a.toNat_lt
  have hb : b.toNat < 2 ^ 64 := b.toNat_lt
  rw [UInt64.toNat_sub, UInt64.le_iff_toNat_le]
  omega

/-- Halving towards zero, by sign. -/
theorem tdiv_two (x : ℤ) : (0 ≤ x → x.tdiv 2 = x / 2) ∧ (x ≤ 0 → x.tdiv 2 = -(-x / 2)) := by
  constructor
  · intro h
    exact Int.tdiv_eq_ediv_of_nonneg h
  · intro h
    have hneg : (-x).tdiv 2 = -x / 2 := Int.tdiv_eq_ediv_of_nonneg (by omega)
    rw [Int.neg_tdiv] at hneg
    omega

end Word64
