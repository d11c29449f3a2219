import Mathlib.Data.List.Basic
import Mathlib.Algebra.BigOperators.Group.List.Basic
import Mathlib.Algebra.GroupWithZero.Nat
import GrinDotnet.Common.Errors

/-!
# Sums of machine words

`Enumerable.Aggregate` without a seed, which raises on an empty sequence, and the wrapping sums the
program takes with it.
-/

namespace GrinDotnet

/-- `Enumerable.Aggregate` without a seed. -/
def aggregate {α : Type} (f : α → α → α) : List α → Except Exn α
  | [] => .error .invalidOperation
  | a :: l => .ok (l.foldl f a)

/-- The exact sum of a list of words. -/
def exactSum (l : List UInt64) : ℕ := (l.map UInt64.toNat).sum

@[simp] theorem exactSum_nil : exactSum [] = 0 := rfl

@[simp] theorem exactSum_cons (a : UInt64) (l : List UInt64) :
    exactSum (a :: l) = a.toNat + exactSum l := by
  simp [exactSum]

@[simp] theorem exactSum_append (l m : List UInt64) : exactSum (l ++ m) = exactSum l + exactSum m := by
  simp [exactSum]

theorem exactSum_perm {l m : List UInt64} (h : l.Perm m) : exactSum l = exactSum m :=
  (h.map UInt64.toNat).sum_eq

theorem toNat_foldl_add (l : List UInt64) (a : UInt64) :
    (l.foldl (· + ·) a).toNat = (a.toNat + exactSum l) % 2 ^ 64 := by
  induction l generalizing a with
  | nil =>
    have ha : a.toNat < 2 ^ 64 := a.toNat_lt
    rw [List.foldl_nil, exactSum_nil, Nat.add_zero, Nat.mod_eq_of_lt ha]
  | cons b l ih =>
    rw [List.foldl_cons, ih, UInt64.toNat_add, exactSum_cons, Nat.mod_add_mod, Nat.add_assoc]

/-- The sum of a sequence that is not empty is the exact one modulo `2 ^ 64`. -/
theorem aggregate_add {l : List UInt64} (h : l ≠ []) :
    ∃ total, aggregate (· + ·) l = .ok total ∧ total.toNat = exactSum l % 2 ^ 64 := by
  cases l with
  | nil => exact absurd rfl h
  | cons a l => exact ⟨_, rfl, by rw [toNat_foldl_add, exactSum_cons]⟩

theorem toNat_of_aggregate_add {l : List UInt64} {total : UInt64}
    (h : aggregate (· + ·) l = .ok total) : total.toNat = exactSum l % 2 ^ 64 ∧ l ≠ [] := by
  cases l with
  | nil => cases h
  | cons a l =>
    cases h
    exact ⟨by rw [toNat_foldl_add, exactSum_cons], by simp⟩

end GrinDotnet
