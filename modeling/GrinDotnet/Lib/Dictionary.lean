import Mathlib.Data.List.Nodup
import Mathlib.Data.List.Dedup

/-!
# Insertion-ordered dictionaries

A finite map that is enumerated in the order in which its keys were added. Adding an existing key is
refused rather than overwriting it. The keys are distinct by construction.
-/

/-- A finite map with distinct keys, enumerated in insertion order. -/
structure Dictionary (κ α : Type*) [DecidableEq κ] where
  entries : List (κ × α)
  nodup : (entries.map Prod.fst).Nodup

namespace Dictionary

variable {κ α β : Type*} [DecidableEq κ]

@[ext] theorem ext {d e : Dictionary κ α} (h : d.entries = e.entries) : d = e := by
  cases d
  cases e
  congr

instance [DecidableEq α] : DecidableEq (Dictionary κ α) := fun d e =>
  decidable_of_iff (d.entries = e.entries) ⟨ext, fun h => h ▸ rfl⟩

/-- The dictionary without entries. -/
def empty : Dictionary κ α := ⟨[], List.nodup_nil⟩

instance : Inhabited (Dictionary κ α) := ⟨empty⟩

/-- The dictionary of one entry. -/
def single (k : κ) (v : α) : Dictionary κ α := ⟨[(k, v)], List.nodup_singleton k⟩

/-- The keys, in insertion order. -/
def keys (d : Dictionary κ α) : List κ := d.entries.map Prod.fst

/-- The values, in the insertion order of their keys. -/
def values (d : Dictionary κ α) : List α := d.entries.map Prod.snd

/-- The value filed under a key. -/
def lookup (d : Dictionary κ α) (k : κ) : Option α :=
  (d.entries.find? (fun e => e.1 = k)).map Prod.snd

/-- Append an entry; `none` when the key is already there. -/
def add (d : Dictionary κ α) (k : κ) (v : α) : Option (Dictionary κ α) :=
  if h : k ∈ d.keys then none
  else some ⟨d.entries ++ [(k, v)], by
    rw [List.map_append, List.nodup_append]
    refine ⟨d.nodup, by simp, ?_⟩
    rintro a ha b hb rfl
    simp only [List.map_cons, List.map_nil, List.mem_singleton] at hb
    exact h (hb ▸ ha)⟩

/-- Drop the entry of a key, if there is one. -/
def remove (d : Dictionary κ α) (k : κ) : Dictionary κ α :=
  ⟨d.entries.filter (fun e => e.1 ≠ k), d.nodup.sublist (List.filter_sublist.map Prod.fst)⟩

/-- Update the value of a key in place, if there is one. -/
def modify (d : Dictionary κ α) (k : κ) (f : α → α) : Dictionary κ α :=
  ⟨d.entries.map (fun e => if e.1 = k then (e.1, f e.2) else e), by
    have hkeys : (d.entries.map (fun e => if e.1 = k then (e.1, f e.2) else e)).map Prod.fst
        = d.entries.map Prod.fst := by
      rw [List.map_map]
      refine List.map_congr_left fun e _ => ?_
      simp only [Function.comp_apply]
      split <;> rfl
    rw [hkeys]
    exact d.nodup⟩

/-! ## Membership and lookup -/

@[simp] theorem lookup_empty (k : κ) : (empty : Dictionary κ α).lookup k = none := rfl

@[simp] theorem keys_empty : (empty : Dictionary κ α).keys = [] := rfl

/-- Two entries of one key are the same entry. -/
theorem eq_of_mem_of_mem {d : Dictionary κ α} {k : κ} {v w : α}
    (hv : (k, v) ∈ d.entries) (hw : (k, w) ∈ d.entries) : v = w := by
  have h := List.inj_on_of_nodup_map d.nodup hv hw rfl
  exact (Prod.mk.inj h).2

theorem mem_entries_iff {d : Dictionary κ α} {k : κ} {v : α} :
    (k, v) ∈ d.entries ↔ d.lookup k = some v := by
  constructor
  · intro h
    cases hf : d.entries.find? (fun e => e.1 = k) with
    | none =>
      have := List.find?_eq_none.mp hf _ h
      simp at this
    | some e =>
      have hk : e.1 = k := by simpa using List.find?_some hf
      have he : (k, e.2) ∈ d.entries := hk ▸ List.mem_of_find?_eq_some hf
      simp [lookup, hf, eq_of_mem_of_mem he h]
  · intro h
    obtain ⟨e, he, rfl⟩ := Option.map_eq_some_iff.mp h
    have hk : e.1 = k := by simpa using List.find?_some he
    exact hk ▸ List.mem_of_find?_eq_some he

theorem mem_values_iff {d : Dictionary κ α} {v : α} : v ∈ d.values ↔ ∃ k, d.lookup k = some v := by
  constructor
  · intro h
    obtain ⟨⟨k, w⟩, he, rfl⟩ := List.mem_map.mp h
    exact ⟨k, mem_entries_iff.mp he⟩
  · rintro ⟨k, hk⟩
    exact List.mem_map.mpr ⟨(k, v), mem_entries_iff.mpr hk, rfl⟩

theorem mem_keys_iff {d : Dictionary κ α} {k : κ} : k ∈ d.keys ↔ ∃ v, d.lookup k = some v := by
  constructor
  · intro h
    obtain ⟨⟨k', v⟩, he, rfl⟩ := List.mem_map.mp h
    exact ⟨v, mem_entries_iff.mp he⟩
  · rintro ⟨v, hv⟩
    exact List.mem_map.mpr ⟨(k, v), mem_entries_iff.mpr hv, rfl⟩

theorem lookup_eq_none_iff {d : Dictionary κ α} {k : κ} : d.lookup k = none ↔ k ∉ d.keys := by
  rw [mem_keys_iff, Option.eq_none_iff_forall_ne_some]
  push Not
  rfl

/-! ## The operations through lookup -/

theorem add_eq_some_iff {d d' : Dictionary κ α} {k : κ} {v : α} :
    d.add k v = some d' ↔ d.lookup k = none ∧ d'.entries = d.entries ++ [(k, v)] := by
  rw [lookup_eq_none_iff]
  unfold add
  split
  · next h => simp [h]
  · next h =>
    simp only [Option.some.injEq, h, not_false_eq_true, true_and]
    exact ⟨fun he => he ▸ rfl, fun he => ext he.symm⟩

theorem add_eq_none_iff {d : Dictionary κ α} {k : κ} {v : α} :
    d.add k v = none ↔ ∃ w, d.lookup k = some w := by
  rw [← mem_keys_iff]
  unfold add
  split <;> simp_all

theorem exists_add {d : Dictionary κ α} {k : κ} (v : α) (h : d.lookup k = none) :
    ∃ d', d.add k v = some d' := by
  cases ha : d.add k v with
  | some d' => exact ⟨d', rfl⟩
  | none =>
    obtain ⟨w, hw⟩ := add_eq_none_iff.mp ha
    rw [h] at hw
    cases hw

theorem lookup_add {d d' : Dictionary κ α} {k : κ} {v : α} (h : d.add k v = some d') (j : κ) :
    d'.lookup j = if j = k then some v else d.lookup j := by
  obtain ⟨hnone, he⟩ := add_eq_some_iff.mp h
  unfold lookup
  rw [he, List.find?_append]
  by_cases hj : j = k
  · subst hj
    have hfind : d.entries.find? (fun e => e.1 = j) = none := by
      simpa [lookup] using hnone
    simp [hfind]
  · have hne : ¬ k = j := fun h => hj h.symm
    simp [hj, hne]

theorem lookup_remove (d : Dictionary κ α) (k j : κ) :
    (d.remove k).lookup j = if j = k then none else d.lookup j := by
  unfold lookup remove
  split
  · next h =>
    subst h
    simp [List.find?_eq_none]
  · next h =>
    rw [List.find?_filter]
    congr 2
    funext e
    by_cases he : e.1 = j
    · simp [he, h]
    · simp [he]

theorem lookup_modify (d : Dictionary κ α) (k j : κ) (f : α → α) :
    (d.modify k f).lookup j = if j = k then (d.lookup j).map f else d.lookup j := by
  unfold lookup modify
  rw [List.find?_map]
  have hcongr : ((fun e : κ × α => decide (e.1 = j)) ∘
      fun e : κ × α => if e.1 = k then (e.1, f e.2) else e) = fun e => decide (e.1 = j) := by
    funext e
    simp only [Function.comp_apply]
    split <;> rfl
  rw [hcongr]
  cases hf : d.entries.find? (fun e => decide (e.1 = j)) with
  | none => simp
  | some e =>
    have he : e.1 = j := by simpa using List.find?_some hf
    by_cases hj : j = k
    · simp [he, hj]
    · have hne : ¬ e.1 = k := he ▸ hj
      simp [hne, hj]

@[simp] theorem keys_modify (d : Dictionary κ α) (k : κ) (f : α → α) :
    (d.modify k f).keys = d.keys := by
  unfold keys modify
  rw [List.map_map]
  refine List.map_congr_left fun e _ => ?_
  simp only [Function.comp_apply]
  split <;> rfl

/-- The entries follow from the keys and the lookups. -/
theorem entries_eq (d : Dictionary κ α) :
    d.entries = d.keys.filterMap fun k => (d.lookup k).map fun v => (k, v) := by
  have hself : ∀ e ∈ d.entries, (d.lookup e.1).map (fun v => (e.1, v)) = some e := by
    intro e he
    rw [mem_entries_iff.mp he, Option.map_some]
  rw [keys, List.filterMap_map]
  exact (List.filterMap_some.symm.trans (List.filterMap_congr fun e he => (hself e he).symm))

/-- Dictionaries with the same keys in the same order and the same lookups are the same. -/
theorem eq_of_lookup {d e : Dictionary κ α} (hkeys : d.keys = e.keys)
    (h : ∀ k, d.lookup k = e.lookup k) : d = e := by
  apply ext
  rw [entries_eq d, entries_eq e, hkeys]
  simp only [h]

/-- Removing a key that was just added restores the dictionary. -/
theorem remove_add {d d' : Dictionary κ α} {k : κ} {v : α} (h : d.add k v = some d') :
    d'.remove k = d := by
  obtain ⟨hnone, he⟩ := add_eq_some_iff.mp h
  apply ext
  have hkeep : d.entries.filter (fun e => decide (e.1 ≠ k)) = d.entries := by
    refine List.filter_eq_self.mpr fun e hmem => ?_
    have hk : e.1 ≠ k := by
      rintro rfl
      exact lookup_eq_none_iff.mp hnone (List.mem_map_of_mem hmem)
    simpa using hk
  simp only [remove, he, List.filter_append, hkeep]
  simp

end Dictionary
