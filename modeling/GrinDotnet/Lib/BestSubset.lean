import Mathlib.Algebra.BigOperators.Group.Multiset.Basic
import Mathlib.Algebra.Order.BigOperators.Group.Multiset
import Mathlib.Algebra.Order.Ring.Nat
import Mathlib.Data.Finset.Max
import Mathlib.Data.Multiset.UnionInter

/-!
# Subsets of greatest weight

Some elements are chosen out of all, as many as allowed. No choice of that size or smaller weighs
more exactly when no element that was left out outweighs one that was chosen.

Results:
1. `weight_le_of_dominates`: a choice that dominates the rest weighs most.
2. `dominates_of_best`: a choice that weighs most dominates the rest.
-/

namespace BestSubset

variable {α : Type*} (f : α → ℕ)

/-- The weight of some elements. -/
def weight (s : Multiset α) : ℕ := (s.map f).sum

@[simp] theorem weight_zero : weight f 0 = 0 := rfl

@[simp] theorem weight_cons (a : α) (s : Multiset α) : weight f (a ::ₘ s) = f a + weight f s := by
  simp [weight]

@[simp] theorem weight_add (s t : Multiset α) : weight f (s + t) = weight f s + weight f t := by
  simp only [weight, Multiset.map_add, Multiset.sum_add]

/-- No element outside outweighs one inside. -/
def Dominates (inside outside : Multiset α) : Prop := ∀ x ∈ outside, ∀ y ∈ inside, f x ≤ f y

variable {f} {inside outside s t : Multiset α}

theorem weight_le_of_le (h : s ≤ t) : weight f s ≤ weight f t := by
  obtain ⟨r, rfl⟩ := Multiset.le_iff_exists_add.mp h
  rw [weight_add]
  exact Nat.le_add_right _ _

/-- Between the elements outside and those that dominate them there is a weight. -/
theorem exists_threshold (h : Dominates f inside outside) :
    ∃ w, (∀ x ∈ outside, f x ≤ w) ∧ ∀ y ∈ inside, w ≤ f y := by
  rcases eq_or_ne outside 0 with rfl | hsome
  · exact ⟨0, by simp⟩
  · obtain ⟨x, hx, hmax⟩ := Multiset.exists_max_image f hsome
    exact ⟨f x, hmax, h x hx⟩

/-- Elements that dominate the rest weigh at least as much as any that are not more. -/
theorem weight_le_of_dominates [DecidableEq α] (h : Dominates f inside outside)
    (hs : s ≤ inside + outside) (hcard : s.card ≤ inside.card) : weight f s ≤ weight f inside := by
  obtain ⟨w, hout, hin⟩ := exists_threshold h
  -- what `s` has from outside against what it leaves inside
  have hsplit : s - inside + s ∩ inside = s := Multiset.sub_add_inter s inside
  have hsplit' : inside - s + s ∩ inside = inside := by
    rw [Multiset.inter_comm]
    exact Multiset.sub_add_inter inside s
  have hfrom : s - inside ≤ outside := by
    rw [Multiset.sub_le_iff_le_add, Multiset.add_comm]
    exact hs
  have hfewer : (s - inside).card ≤ (inside - s).card := by
    have hs' := congrArg Multiset.card hsplit
    have hinside' := congrArg Multiset.card hsplit'
    rw [Multiset.card_add] at hs' hinside'
    omega
  have hupper : weight f (s - inside) ≤ (s - inside).card * w := by
    have hall : ∀ v ∈ (s - inside).map f, v ≤ w := by
      simpa using fun x hx => hout x (Multiset.mem_of_le hfrom hx)
    simpa [weight] using Multiset.sum_le_card_nsmul _ w hall
  have hlower : (inside - s).card * w ≤ weight f (inside - s) := by
    have hall : ∀ v ∈ (inside - s).map f, w ≤ v := by
      simpa using fun y hy => hin y (Multiset.mem_of_le (Multiset.sub_le_self _ _) hy)
    simpa [weight] using Multiset.card_nsmul_le_sum hall
  calc weight f s = weight f (s - inside) + weight f (s ∩ inside) := by rw [← weight_add, hsplit]
    _ ≤ weight f (inside - s) + weight f (s ∩ inside) :=
      Nat.add_le_add_right
        (hupper.trans ((Nat.mul_le_mul_right w hfewer).trans hlower)) _
    _ = weight f inside := by rw [← weight_add, hsplit']

/-- Elements that weigh at least as much as any that are not more dominate the rest. -/
theorem dominates_of_best
    (h : ∀ s ≤ inside + outside, s.card ≤ inside.card → weight f s ≤ weight f inside) :
    Dominates f inside outside := by
  intro x hx y hy
  obtain ⟨a, rfl⟩ := Multiset.exists_cons_of_mem hy
  obtain ⟨b, rfl⟩ := Multiset.exists_cons_of_mem hx
  -- take `x` in the place of `y`
  have hle : x ::ₘ a ≤ y ::ₘ a + x ::ₘ b := by
    rw [Multiset.add_cons, Multiset.cons_le_cons_iff]
    exact (Multiset.le_cons_self a y).trans (Multiset.le_add_right _ _)
  have hweight := h (x ::ₘ a) hle (by simp)
  rw [weight_cons, weight_cons] at hweight
  exact Nat.le_of_add_le_add_right hweight

end BestSubset
