import Mathlib.Algebra.BigOperators.Group.List.Basic
import Mathlib.Algebra.Order.Ring.Nat

/-!
# Shortest prefixes that cover an amount

Items with a worth in a fixed order, taken from the front until they are worth an amount.

Results:
1. `shortest_take`: the prefix of `coverLength` items covers and is the shortest that does.
2. `coverLength_eq_length_iff`: when it is the whole list.
-/

namespace Covering

variable {α : Type*} (f : α → ℕ)

/-- What items are worth together. -/
def total (l : List α) : ℕ := (l.map f).sum

@[simp] theorem total_nil : total f [] = 0 := rfl

@[simp] theorem total_cons (a : α) (l : List α) : total f (a :: l) = f a + total f l := by
  simp [total]

/-- How many items from the front are worth an amount, all of them if they are not. -/
def coverLength : ℕ → List α → ℕ
  | 0, _ => 0
  | _ + 1, [] => 0
  | need + 1, a :: l => coverLength (need + 1 - f a) l + 1

/-- A prefix that is worth an amount, and loses that with its last item; no shorter one is worth it. -/
structure Shortest (amount : ℕ) (p l : List α) : Prop where
  isPrefix : p <+: l
  covers : amount ≤ total f p
  dropLast_lt : total f p.dropLast < amount
  shortest : ∀ q, q <+: l → amount ≤ total f q → p.length ≤ q.length

variable {f} {amount : ℕ} {l p : List α}

@[simp] theorem coverLength_zero (l : List α) : coverLength f 0 l = 0 := by
  cases l <;> rfl

theorem coverLength_cons {a : α} (h : 0 < amount) :
    coverLength f amount (a :: l) = coverLength f (amount - f a) l + 1 := by
  cases amount with
  | zero => exact absurd h (lt_irrefl 0)
  | succ need => rfl

theorem coverLength_le_length (amount : ℕ) (l : List α) : coverLength f amount l ≤ l.length := by
  induction l generalizing amount with
  | nil => cases amount <;> exact le_refl _
  | cons a l ih =>
    rcases Nat.eq_zero_or_pos amount with rfl | hpos
    · simp
    · rw [coverLength_cons hpos]
      exact Nat.succ_le_succ (ih _)

/-- Fewer items than `coverLength` are not worth the amount, and no fewer are. -/
theorem le_total_take_iff (h : amount ≤ total f l) (n : ℕ) :
    amount ≤ total f (l.take n) ↔ coverLength f amount l ≤ n := by
  induction l generalizing amount n with
  | nil =>
    obtain rfl : amount = 0 := Nat.le_zero.mp h
    simp
  | cons a l ih =>
    rcases Nat.eq_zero_or_pos amount with rfl | hpos
    · simp
    · rw [total_cons] at h
      rw [coverLength_cons hpos]
      cases n with
      | zero => simpa using hpos.ne'
      | succ n =>
        have hrest : amount - f a ≤ total f (l.take n) ↔ coverLength f (amount - f a) l ≤ n :=
          ih (by omega) n
        rw [List.take_succ_cons, total_cons, Nat.add_le_add_iff_right, ← hrest]
        omega

/-- The first items that are worth an amount are the shortest prefix that is. -/
theorem shortest_take (hpos : 0 < amount) (h : amount ≤ total f l) :
    Shortest f amount (l.take (coverLength f amount l)) l where
  isPrefix := List.take_prefix _ _
  covers := (le_total_take_iff h _).mpr (le_refl _)
  dropLast_lt := by
    have hle := coverLength_le_length (f := f) amount l
    have hsome : 0 < coverLength f amount l := by
      cases l with
      | nil => exact absurd (lt_of_lt_of_le hpos h) (lt_irrefl 0)
      | cons a l =>
        rw [coverLength_cons hpos]
        exact Nat.succ_pos _
    have hdrop : (l.take (coverLength f amount l)).dropLast =
        l.take (coverLength f amount l - 1) := by
      rw [List.dropLast_eq_take, List.length_take, min_eq_left hle, List.take_take,
        min_eq_left (Nat.sub_le _ _)]
    rw [hdrop, ← not_le, le_total_take_iff h]
    omega
  shortest := by
    intro q hq hcover
    rw [List.prefix_iff_eq_take.mp hq, le_total_take_iff h] at hcover
    rw [List.length_take]
    exact le_trans (min_le_left _ _) hcover

/-- There is one shortest prefix. -/
theorem Shortest.eq_take (hs : Shortest f amount p l) (hpos : 0 < amount) :
    p = l.take (coverLength f amount l) := by
  have hle : amount ≤ total f l := by
    obtain ⟨rest, rfl⟩ := hs.isPrefix
    have hsum : total f (p ++ rest) = total f p + total f rest := by simp [total]
    rw [hsum]
    exact le_trans hs.covers (Nat.le_add_right _ _)
  have htake := shortest_take hpos hle
  have hlen : p.length = coverLength f amount l := by
    refine le_antisymm ?_ ?_
    · have hp := hs.shortest _ htake.isPrefix htake.covers
      rw [List.length_take] at hp
      exact le_trans hp (min_le_left _ _)
    · have hp := htake.shortest _ hs.isPrefix hs.covers
      rwa [List.length_take, min_eq_left (coverLength_le_length amount l)] at hp
  rw [← hlen]
  exact List.prefix_iff_eq_take.mp hs.isPrefix

/-- All items are needed exactly when the amount is not reached without the last one. -/
theorem coverLength_eq_length_iff (hpos : 0 < amount) (h : amount ≤ total f l) :
    coverLength f amount l = l.length ↔ total f l.dropLast < amount := by
  have hle := coverLength_le_length (f := f) amount l
  have hsome : 0 < l.length := by
    cases l with
    | nil => exact absurd (lt_of_lt_of_le hpos h) (lt_irrefl 0)
    | cons a l => exact Nat.succ_pos _
  rw [List.dropLast_eq_take, ← not_le, le_total_take_iff h]
  omega

end Covering
