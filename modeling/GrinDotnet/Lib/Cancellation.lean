import Mathlib.Algebra.BigOperators.Group.List.Basic
import Mathlib.Data.List.Count
import Mathlib.Data.List.Perm.Basic
import Mathlib.Tactic.Abel

/-!
# Cancelling common elements

Two lists may drop elements that they hold equally often: the difference of their sums stays the same.
-/

namespace Cancellation

variable {α G : Type*} [AddCommGroup G]

theorem sum_filter_add_sum_filter_not (f : α → G) (p : α → Bool) (l : List α) :
    ((l.filter p).map f).sum + ((l.filter fun a => !p a).map f).sum = (l.map f).sum := by
  have h : (l.filter p ++ l.filter fun a => !p a).Perm l := List.filter_append_perm p l
  rw [← (h.map f).sum_eq, List.map_append, List.sum_append]

/-- Two lists keep the same elements under a filter exactly when they hold what it accepts equally
often. -/
theorem filter_perm_iff [DecidableEq α] {l m : List α} {p : α → Bool} :
    (l.filter p).Perm (m.filter p) ↔ ∀ a, p a = true → l.count a = m.count a := by
  rw [List.perm_iff_count]
  constructor
  · intro h a ha
    have hcount := h a
    rwa [List.count_filter ha, List.count_filter ha] at hcount
  · intro h a
    cases hp : p a with
    | true => rw [List.count_filter hp, List.count_filter hp, h a hp]
    | false =>
      have hnot : ∀ k : List α, a ∉ k.filter p := fun k ha => by
        rw [(List.mem_filter.mp ha).2] at hp
        cases hp
      rw [List.count_eq_zero_of_not_mem (hnot l), List.count_eq_zero_of_not_mem (hnot m)]

/-- Dropping the same elements on both sides does not change the difference of the sums. -/
theorem sum_sub_sum_filter_not (f : α → G) {l m : List α} {p : α → Bool}
    (h : (l.filter p).Perm (m.filter p)) :
    ((l.filter fun a => !p a).map f).sum - ((m.filter fun a => !p a).map f).sum
      = (l.map f).sum - (m.map f).sum := by
  have hcommon : ((l.filter p).map f).sum = ((m.filter p).map f).sum := (h.map f).sum_eq
  rw [← sum_filter_add_sum_filter_not f p l, ← sum_filter_add_sum_filter_not f p m, hcommon]
  abel

end Cancellation
