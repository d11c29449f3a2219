import Mathlib.Algebra.BigOperators.Group.List.Basic
import Mathlib.Data.ZMod.Basic
import Mathlib.Tactic.Linarith

/-!
# From sums modulo `n` to exact sums

A sum of bounded natural numbers over a list of bounded length stays below the product of the two
bounds. When that product fits below a modulus, an equation modulo `n` is an equation of integers.
-/

namespace ExactSum

theorem sum_map_le {ι : Type*} (l : List ι) (f : ι → ℕ) {B : ℕ} (hf : ∀ x ∈ l, f x < B) :
    (l.map f).sum ≤ l.length * B := by
  induction l with
  | nil => simp
  | cons x l ih =>
    have hx : f x < B := hf x (by simp)
    have hl := ih fun y hy => hf y (by simp [hy])
    simp only [List.map_cons, List.sum_cons, List.length_cons]
    rw [Nat.add_mul, Nat.one_mul]
    omega

/-- A short list of bounded summands has a bounded sum. -/
theorem sum_map_le_of_length_lt {ι : Type*} {l : List ι} {f : ι → ℕ} {B L : ℕ}
    (hf : ∀ x ∈ l, f x < B) (hl : l.length < L) : (l.map f).sum ≤ L * B :=
  (sum_map_le l f hf).trans (Nat.mul_le_mul_right B hl.le)

/-- Integers that agree modulo `n` and differ by less than `n` are equal. -/
theorem eq_of_cast_eq {n : ℕ} {a b : ℤ} (h : (a : ZMod n) = (b : ZMod n))
    (hab : a - b < n) (hba : b - a < n) : a = b := by
  have hdvd : (n : ℤ) ∣ a - b := by
    rw [← ZMod.intCast_zmod_eq_zero_iff_dvd]
    simp [h]
  have hzero : a - b = 0 := Int.eq_zero_of_abs_lt_dvd hdvd (by rw [abs_lt]; constructor <;> linarith)
  linarith

end ExactSum
