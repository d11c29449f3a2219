import Mathlib.Data.List.Sort

/-!
# Stable sorting by a key

What sorting a list by a key leaves: the same elements, their keys in order, and elements of one key
in the order they had.

Results:
1. `sortedBy_insertionSort`: insertion sort sorts stably.
2. `SortedBy.insertionSort_eq`: sorting once more changes nothing.
3. `insertionSort_eq_of_perm`: sorting by distinct keys forgets the order of the list.
-/

namespace StableSort

universe u v

variable {α : Type u} {κ : Type v} [DecidableEq κ]

/-- The second list is the first one, sorted stably by a key. -/
structure SortedBy (le : κ → κ → Prop) (key : α → κ) (l sorted : List α) : Prop where
  perm : sorted.Perm l
  ordered : sorted.Pairwise fun a b => le (key a) (key b)
  stable : ∀ k, (sorted.filter fun a => key a = k) = l.filter fun a => key a = k

variable {le : κ → κ → Prop} {key : α → κ} {l sorted : List α}

variable [DecidableRel le]

/-- A sorted list is in order already. -/
theorem SortedBy.insertionSort_eq (h : SortedBy le key l sorted) :
    (sorted.insertionSort fun a b => le (key a) (key b)) = sorted :=
  h.ordered.insertionSort_eq

variable (le key) [Std.Total le]

/-- Elements of one key are in order, so sorting keeps them as they stand. -/
theorem filter_insertionSort (l : List α) (k : κ) :
    ((l.insertionSort fun a b => le (key a) (key b)).filter fun a => key a = k) =
      l.filter fun a => key a = k := by
  have hpair : (l.filter fun a => key a = k).Pairwise fun a b => le (key a) (key b) := by
    refine List.pairwise_of_forall_mem_list fun a ha b hb => ?_
    have hkey : key a = key b := by
      rw [of_decide_eq_true (List.mem_filter.mp ha).2, of_decide_eq_true (List.mem_filter.mp hb).2]
    rw [hkey]
    exact refl_of le _
  have hperm := List.perm_insertionSort (fun a b => le (key a) (key b)) l
  have hsub := (List.sublist_insertionSort hpair List.filter_sublist).filter fun a => key a = k
  rw [List.filter_filter] at hsub
  simp only [Bool.and_self] at hsub
  exact (hsub.eq_of_length (hperm.filter _).length_eq.symm).symm

/-- Insertion sort sorts stably. -/
theorem sortedBy_insertionSort [IsTrans κ le] (l : List α) :
    SortedBy le key l (l.insertionSort fun a b => le (key a) (key b)) where
  perm := List.perm_insertionSort _ l
  ordered := by
    have htotal : Std.Total fun a b : α => le (key a) (key b) := ⟨fun a b => total_of le _ _⟩
    have htrans : IsTrans α fun a b => le (key a) (key b) := ⟨fun _ _ _ => trans_of le⟩
    exact List.pairwise_insertionSort _ l
  stable := filter_insertionSort le key l

/-- Sorting by distinct keys forgets the order of the list. -/
theorem insertionSort_eq_of_perm [IsTrans κ le]
    (hantisymm : ∀ a b, le (key a) (key b) → le (key b) (key a) → key a = key b)
    {l m : List α} (h : l.Perm m) (hkeys : (l.map key).Nodup) :
    (l.insertionSort fun a b => le (key a) (key b)) = m.insertionSort fun a b => le (key a) (key b) := by
  have hl := sortedBy_insertionSort le key l
  have hm := sortedBy_insertionSort le key m
  refine List.Perm.eq_of_pairwise (fun a b ha hb hab hba => ?_) hl.ordered hm.ordered
    ((hl.perm.trans h).trans hm.perm.symm)
  have hkey : key a = key b := hantisymm _ _ hab hba
  exact List.inj_on_of_nodup_map hkeys (hl.perm.mem_iff.mp ha)
    (h.mem_iff.mpr (hm.perm.mem_iff.mp hb)) hkey

end StableSort
