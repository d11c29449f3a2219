import Mathlib.Data.Set.Card
import Mathlib.Order.Interval.Finset.Nat
import GrinDotnet.Mmr.Navigation

/-!
# The prune list

`PruneList` of the original node: the positions that were removed from a compact storage, the roots of
removed trees only. A position is shifted by the number of removed ones before it.

The results are about lists to which leaves are added. The sum tree of the original node also adds the inner
nodes it removes, each behind the leaves below it, and then the shift can be too large: a node that was
already merged into its parent is put into the list again and is counted twice.

Results:
1. `addLoop_spec`: a new tree goes into the list, and siblings are merged.
2. `covered_iff_gone`: the list has exactly the nodes whose leaves were all added.
3. `shift_of_leaves`: the list stays compact, the shift of a position counts such nodes before it, and the
   node is read through it.
-/

namespace GrinDotnet

namespace Pmmr

open PostOrder

/-- `binary_search` in a sorted vector: where the value is, or where it would be inserted. -/
def binarySearch (xs : List ℕ) (x : ℕ) : Except ℕ ℕ :=
  let idx := xs.findIdx fun y => x ≤ y
  if xs[idx]? = some x then .ok idx else .error idx

/-- `PruneList`. -/
structure PruneList where
  prunedNodes : List ℕ

namespace PruneList

/-- `PruneList::new`. -/
def new : PruneList := { prunedNodes := [] }

/-- The loop of `PruneList::pruned_pos`: whether the next pruned node is a parent further up. -/
def upLoop (nextPeakPos : ℕ) : ℕ → ℕ → Bool
  | 0, _ => false
  | fuel + 1, cursor =>
    let (parent, _) := family cursor
    if nextPeakPos = parent then true
    else if nextPeakPos < parent then false
    else upLoop nextPeakPos fuel parent

/-- `PruneList::pruned_pos`. -/
def prunedPos (self : PruneList) (pos : ℕ) : Option ℕ :=
  match binarySearch self.prunedNodes pos with
  | .ok _ => none
  | .error idx =>
    match self.prunedNodes[idx]? with
    | some nextPeakPos => if upLoop nextPeakPos (nextPeakPos + 1) pos then none else some idx
    | none => some idx

/-- `PruneList::get_shift`. -/
def getShift (self : PruneList) (pos : ℕ) : Option ℕ :=
  (self.prunedPos pos).map fun idx =>
    ((self.prunedNodes.take idx).map fun n => (1 <<< (bintreePostorderHeight n + 1)) - 1).sum

/-- The loop of `PruneList::add`. -/
def addLoop : ℕ → List ℕ → ℕ → List ℕ
  | 0, prunedNodes, _ => prunedNodes
  | fuel + 1, prunedNodes, current =>
    let (parent, sibling) := family current
    match binarySearch prunedNodes sibling with
    | .ok idx => addLoop fuel (prunedNodes.eraseIdx idx) parent
    | .error _ =>
      match binarySearch prunedNodes current with
      | .ok _ => prunedNodes
      | .error idx => prunedNodes.insertIdx idx current

/-- `PruneList::add`. -/
def add (self : PruneList) (pos : ℕ) : PruneList :=
  { prunedNodes := addLoop (self.prunedNodes.length + 1) self.prunedNodes pos }

end PruneList

/-! ## Sorted lists -/

/-- What is before the place of a value is smaller, and what is behind it is not. -/
theorem findIdx_spec {xs : List ℕ} (hsorted : xs.Pairwise (· < ·)) (x : ℕ) :
    (∀ y ∈ xs.take (xs.findIdx fun y => x ≤ y), y < x) ∧
      ∀ y ∈ xs.drop (xs.findIdx fun y => x ≤ y), x ≤ y := by
  induction xs with
  | nil => simp
  | cons a xs ih =>
    obtain ⟨hhead, htail⟩ := List.pairwise_cons.mp hsorted
    rw [List.findIdx_cons]
    by_cases hle : x ≤ a
    · have hrest : ∀ y ∈ xs, x ≤ y := fun y hy => le_trans hle (hhead y hy).le
      simpa [hle] using hrest
    · obtain ⟨hbefore, hbehind⟩ := ih htail
      have hlt : a < x := not_le.mp hle
      simp only [hle, decide_false, cond_false, List.take_succ_cons, List.drop_succ_cons]
      refine ⟨fun y hy => ?_, hbehind⟩
      rcases List.mem_cons.mp hy with rfl | hy
      · exact hlt
      · exact hbefore y hy

/-- A search finds the value, or the place between the smaller and the larger ones. -/
theorem binarySearch_spec {xs : List ℕ} (hsorted : xs.Pairwise (· < ·)) (x : ℕ) :
    (∃ idx, binarySearch xs x = .ok idx ∧ xs[idx]? = some x) ∨
      ∃ idx, binarySearch xs x = .error idx ∧ x ∉ xs ∧ idx ≤ xs.length ∧ (∀ y ∈ xs.take idx, y < x) ∧
        ∀ y ∈ xs.drop idx, x < y := by
  obtain ⟨hbefore, hbehind⟩ := findIdx_spec hsorted x
  have hle : (xs.findIdx fun y => x ≤ y) ≤ xs.length := List.findIdx_le_length
  simp only [binarySearch]
  generalize (xs.findIdx fun y => x ≤ y) = idx at *
  by_cases hfound : xs[idx]? = some x
  · exact .inl ⟨idx, by rw [if_pos hfound], hfound⟩
  · have hlarger : ∀ y ∈ xs.drop idx, x < y := by
      intro y hy
      cases hdrop : xs.drop idx with
      | nil =>
        rw [hdrop] at hy
        cases hy
      | cons a rest =>
        have hhead : xs[idx]? = some a := by rw [← List.head?_drop, hdrop, List.head?_cons]
        have hrest := hsorted.drop (i := idx)
        rw [hdrop, List.pairwise_cons] at hrest
        have hle := hbehind a (by rw [hdrop]; exact List.mem_cons_self)
        have hne : x ≠ a := fun h => hfound (h ▸ hhead)
        rw [hdrop] at hy
        rcases List.mem_cons.mp hy with rfl | hy
        · exact lt_of_le_of_ne hle hne
        · exact lt_of_le_of_lt hle (hrest.1 y hy)
    refine .inr ⟨idx, by rw [if_neg hfound], fun hin => ?_, hle, hbefore, hlarger⟩
    rw [← List.take_append_drop idx xs, List.mem_append] at hin
    rcases hin with hin | hin
    · exact lt_irrefl x (hbefore x hin)
    · exact lt_irrefl x (hlarger x hin)

theorem mem_eraseIdx_iff {xs : List ℕ} (hnodup : xs.Nodup) {idx x : ℕ} (hidx : xs[idx]? = some x) {n : ℕ} :
    n ∈ xs.eraseIdx idx ↔ n ∈ xs ∧ n ≠ x := by
  obtain ⟨hlt, hget⟩ := List.getElem?_eq_some_iff.mp hidx
  rw [← List.Nodup.erase_getElem hnodup idx hlt, hget, hnodup.mem_erase_iff, and_comm]

/-- Inserted at its place, a value keeps a list sorted. -/
theorem pairwise_insertIdx {xs : List ℕ} (hsorted : xs.Pairwise (· < ·)) {idx x : ℕ}
    (hbefore : ∀ y ∈ xs.take idx, y < x) (hbehind : ∀ y ∈ xs.drop idx, x < y) :
    (xs.insertIdx idx x).Pairwise (· < ·) := by
  induction idx generalizing xs with
  | zero => exact List.pairwise_cons.mpr ⟨hbehind, hsorted⟩
  | succ idx ih =>
    cases xs with
    | nil => exact .nil
    | cons a xs =>
      obtain ⟨hhead, htail⟩ := List.pairwise_cons.mp hsorted
      have hrest := ih htail (fun y hy => hbefore y (List.mem_cons_of_mem _ hy)) hbehind
      refine List.pairwise_cons.mpr ⟨fun y hy => ?_, hrest⟩
      rcases List.mem_cons.mp (List.insertIdx_subset_cons idx x xs hy) with rfl | hy
      · exact hbefore a List.mem_cons_self
      · exact hhead y hy

/-! ## Trees of positions -/

/-- A position is in the tree of a node. -/
def Under (n q : ℕ) : Prop := q ≤ n ∧ n < q + size (bintreePostorderHeight n)

instance (n q : ℕ) : Decidable (Under n q) := inferInstanceAs (Decidable (_ ∧ _))

theorem under_pos_iff {j i k h : ℕ} : Under (pos k h) (pos j i) ↔ Below j i k h := by
  rw [Under, bintreePostorderHeight_pos, below_iff]

theorem Under.positive {n q : ℕ} (hn : 0 < n) (h : Under n q) : 0 < q := by
  obtain ⟨k, i, rfl⟩ := exists_pos hn
  have hsize := size_le_pos k i
  rw [Under, bintreePostorderHeight_pos] at h
  omega

theorem Under.refl {n : ℕ} (hn : 0 < n) : Under n n := by
  obtain ⟨k, h, rfl⟩ := exists_pos hn
  exact under_pos_iff.mpr (Below.refl k h)

theorem Under.trans {n m q : ℕ} (hn : 0 < n) (hm : Under n m) (hq : Under m q) : Under n q := by
  obtain ⟨k, h, rfl⟩ := exists_pos hn
  obtain ⟨l, g, rfl⟩ := exists_pos (hm.positive hn)
  obtain ⟨j, i, rfl⟩ := exists_pos (hq.positive (hm.positive hn))
  exact under_pos_iff.mpr ((under_pos_iff.mp hq).trans (under_pos_iff.mp hm))

/-- Of two trees with a common node one is in the other. -/
theorem Under.or {n m q : ℕ} (hn : 0 < n) (hm : 0 < m) (hnq : Under n q) (hmq : Under m q) :
    Under n m ∨ Under m n := by
  obtain ⟨k, h, rfl⟩ := exists_pos hn
  obtain ⟨l, g, rfl⟩ := exists_pos hm
  obtain ⟨j, i, rfl⟩ := exists_pos (hnq.positive hn)
  rw [under_pos_iff] at *
  rw [under_pos_iff]
  rcases le_total h g with hle | hle
  · exact .inr (hnq.of_le hmq hle)
  · exact .inl (hmq.of_le hnq hle)

/-- What is above a parent is above its child. -/
theorem under_parent_iff {n k h : ℕ} (hn : 0 < n) :
    Under n (pos (k / 2) (h + 1)) ↔ Under n (pos k h) ∧ n ≠ pos k h := by
  obtain ⟨l, g, rfl⟩ := exists_pos hn
  rw [under_pos_iff, under_pos_iff, below_parent_iff]
  refine and_congr_right fun _ => not_congr ⟨?_, fun heq => ?_⟩
  · rintro ⟨rfl, rfl⟩
    rfl
  · obtain ⟨rfl, rfl⟩ := pos_inj heq
    exact ⟨rfl, rfl⟩

/-- The tree of a parent has the parent, the child's tree and that of its sibling. -/
theorem parent_under_iff {k h p : ℕ} (hp : 0 < p) :
    Under (pos (k / 2) (h + 1)) p ↔
      p = pos (k / 2) (h + 1) ∨ Under (pos k h) p ∨ Under (pos (k ^^^ 1) h) p := by
  obtain ⟨j, i, rfl⟩ := exists_pos hp
  rw [under_pos_iff, under_pos_iff, under_pos_iff, below_succ_iff]
  have hself : (j = k / 2 ∧ i = h + 1) ↔ pos j i = pos (k / 2) (h + 1) :=
    ⟨fun ⟨hj, hi⟩ => by rw [hj, hi], fun heq => pos_inj heq⟩
  rw [hself]
  refine or_congr_right ?_
  rcases Nat.even_or_odd' k with ⟨c, rfl | rfl⟩
  · have hhalf : 2 * c / 2 = c := by omega
    rw [hhalf, Nat.xor_one_of_even (even_two_mul c)]
  · have hhalf : (2 * c + 1) / 2 = c := by omega
    rw [hhalf, Nat.xor_one_of_odd (odd_two_mul_add_one c), Nat.add_sub_cancel, or_comm]

/-- Siblings are siblings of each other. -/
theorem sibling_sibling {n : ℕ} (hn : 0 < n) : (family (family n).2).2 = n := by
  obtain ⟨k, h, rfl⟩ := exists_pos hn
  rw [family_pos, family_pos, Nat.xor_xor_cancel_right]

theorem sibling_ne {n : ℕ} (hn : 0 < n) : (family n).2 ≠ n := by
  obtain ⟨k, h, rfl⟩ := exists_pos hn
  rw [family_pos]
  intro heq
  have hk := (pos_inj heq).1
  rcases Nat.even_or_odd' k with ⟨c, rfl | rfl⟩
  · rw [Nat.xor_one_of_even (even_two_mul c)] at hk
    omega
  · rw [Nat.xor_one_of_odd (odd_two_mul_add_one c)] at hk
    omega

/-! ## The list -/

/-- A position is in one of the trees of a list. -/
def Covered (nodes : List ℕ) (q : ℕ) : Prop := ∃ n ∈ nodes, Under n q

instance (nodes : List ℕ) (q : ℕ) : Decidable (Covered nodes q) :=
  inferInstanceAs (Decidable (∃ n ∈ nodes, Under n q))

theorem covered_insertIdx_iff {nodes : List ℕ} {idx q p : ℕ} (hle : idx ≤ nodes.length) :
    Covered (nodes.insertIdx idx q) p ↔ Covered nodes p ∨ Under q p := by
  have hmem (n : ℕ) : n ∈ nodes.insertIdx idx q ↔ n = q ∨ n ∈ nodes := List.mem_insertIdx hle
  constructor
  · rintro ⟨n, hn, hunder⟩
    rcases (hmem n).mp hn with rfl | hn
    · exact .inr hunder
    · exact .inl ⟨n, hn, hunder⟩
  · rintro (⟨n, hn, hunder⟩ | hunder)
    · exact ⟨n, (hmem n).mpr (.inr hn), hunder⟩
    · exact ⟨q, (hmem q).mpr (.inl rfl), hunder⟩

/-- A list of roots in their order, of which none is in the tree of another and no two are siblings. -/
structure Compact (nodes : List ℕ) : Prop where
  positive : ∀ n ∈ nodes, 0 < n
  sorted : nodes.Pairwise (· < ·)
  apart : ∀ n ∈ nodes, ∀ m ∈ nodes, Under n m → n = m
  single : ∀ n ∈ nodes, (family n).2 ∉ nodes

namespace Compact

theorem nil : Compact [] where
  positive n hn := by cases hn
  sorted := .nil
  apart n hn := by cases hn
  single n hn := by cases hn

variable {nodes : List ℕ}

theorem nodup (h : Compact nodes) : nodes.Nodup := h.sorted.imp fun hlt => hlt.ne

/-- Some elements of the list. -/
theorem sublist {row : List ℕ} (h : Compact nodes) (hsub : row.Sublist nodes) : Compact row where
  positive n hn := h.positive n (hsub.subset hn)
  sorted := h.sorted.sublist hsub
  apart n hn m hm := h.apart n (hsub.subset hn) m (hsub.subset hm)
  single n hn hsibling := h.single n (hsub.subset hn) (hsub.subset hsibling)

/-- A root that is in no tree, has none in its own and no sibling goes to its place. -/
theorem insert (h : Compact nodes) {q idx : ℕ} (hq : 0 < q) (hle : idx ≤ nodes.length)
    (hbefore : ∀ y ∈ nodes.take idx, y < q) (hbehind : ∀ y ∈ nodes.drop idx, q < y)
    (hcovered : ¬ Covered nodes q) (hfree : ∀ n ∈ nodes, ¬ Under q n) (hsibling : (family q).2 ∉ nodes) :
    Compact (nodes.insertIdx idx q) := by
  have hmem (n : ℕ) : n ∈ nodes.insertIdx idx q ↔ n = q ∨ n ∈ nodes := List.mem_insertIdx hle
  refine ⟨fun n hn => ?_, ?_, fun n hn m hm hunder => ?_, fun n hn hin => ?_⟩
  · rcases (hmem n).mp hn with rfl | hn
    · exact hq
    · exact h.positive n hn
  · exact pairwise_insertIdx h.sorted hbefore hbehind
  · rcases (hmem n).mp hn with rfl | hold
    · rcases (hmem m).mp hm with rfl | hm
      · rfl
      · exact absurd hunder (hfree m hm)
    · rcases (hmem m).mp hm with rfl | hm
      · exact absurd ⟨n, hold, hunder⟩ hcovered
      · exact h.apart n hold m hm hunder
  · rcases (hmem n).mp hn with rfl | hn
    · rcases (hmem _).mp hin with heq | hin
      · exact sibling_ne hq heq
      · exact hsibling hin
    · rcases (hmem _).mp hin with heq | hin
      · refine hsibling ?_
        rw [← heq, sibling_sibling (h.positive n hn)]
        exact hn
      · exact h.single n hn hin

end Compact

/-! ## Adding a leaf -/

namespace PruneList

/-- The loop adds a tree: it merges siblings and keeps everything else. -/
theorem addLoop_spec {nodes : List ℕ} (hnodes : Compact nodes) {fuel k h : ℕ} (hfuel : nodes.length < fuel)
    (hcovered : ¬ Covered nodes (pos k h)) (hfree : ∀ n ∈ nodes, ¬ Under (pos k h) n) :
    Compact (addLoop fuel nodes (pos k h)) ∧ ∀ m, Covered (addLoop fuel nodes (pos k h)) (pos m 0) ↔
      Covered nodes (pos m 0) ∨ Under (pos k h) (pos m 0) := by
  induction fuel generalizing nodes k h with
  | zero => exact absurd hfuel (Nat.not_lt_zero _)
  | succ fuel ih =>
    simp only [addLoop, family_pos]
    rcases binarySearch_spec hnodes.sorted (pos (k ^^^ 1) h) with
      ⟨idx, hsearch, hidx⟩ | ⟨idx, hsearch, habsent, -⟩
    · -- the sibling leaves the list, and the parent is added
      have hmem (n : ℕ) := mem_eraseIdx_iff hnodes.nodup hidx (n := n)
      have hsibling : pos (k ^^^ 1) h ∈ nodes := List.mem_of_getElem? hidx
      have hpos := pos_pos k h
      have hparent := pos_pos (k / 2) (h + 1)
      have hcompact : Compact (nodes.eraseIdx idx) := hnodes.sublist (List.eraseIdx_sublist _ _)
      have hcovered' : ¬ Covered (nodes.eraseIdx idx) (pos (k / 2) (h + 1)) := by
        rintro ⟨n, hn, hunder⟩
        have hin := ((hmem n).mp hn).1
        exact hcovered ⟨n, hin, ((under_parent_iff (hnodes.positive n hin)).mp hunder).1⟩
      have hfree' : ∀ n ∈ nodes.eraseIdx idx, ¬ Under (pos (k / 2) (h + 1)) n := by
        intro n hn hunder
        obtain ⟨hin, hne⟩ := (hmem n).mp hn
        have hn := hnodes.positive n hin
        rcases (parent_under_iff hn).mp hunder with rfl | hunder | hunder
        · exact hcovered ⟨_, hin, ((under_parent_iff hn).mp (Under.refl hn)).1⟩
        · exact hfree n hin hunder
        · exact hne (hnodes.apart _ hsibling n hin hunder).symm
      have hlength : (nodes.eraseIdx idx).length < fuel := by
        obtain ⟨hlt, -⟩ := List.getElem?_eq_some_iff.mp hidx
        rw [List.length_eraseIdx_of_lt hlt]
        omega
      obtain ⟨hresult, hleaves⟩ := ih hcompact hlength hcovered' hfree'
      rw [hsearch]
      refine ⟨hresult, fun m => ?_⟩
      rw [hleaves, parent_under_iff (pos_pos m 0)]
      have hleaf : pos m 0 ≠ pos (k / 2) (h + 1) := fun heq => absurd (pos_inj heq).2 (Nat.succ_ne_zero h).symm
      constructor
      · rintro (⟨n, hn, hunder⟩ | heq | hunder | hunder)
        · exact .inl ⟨n, ((hmem n).mp hn).1, hunder⟩
        · exact absurd heq hleaf
        · exact .inr hunder
        · exact .inl ⟨_, hsibling, hunder⟩
      · rintro (⟨n, hn, hunder⟩ | hunder)
        · by_cases hne : n = pos (k ^^^ 1) h
          · exact .inr (.inr (.inr (hne ▸ hunder)))
          · exact .inl ⟨n, (hmem n).mpr ⟨hn, hne⟩, hunder⟩
        · exact .inr (.inr (.inl hunder))
    · rw [hsearch]
      simp only
      rcases binarySearch_spec hnodes.sorted (pos k h) with
        ⟨idx, hsearch, hidx⟩ | ⟨idx, hsearch, -, hle, hbefore, hbehind⟩
      · exact absurd ⟨_, List.mem_of_getElem? hidx, Under.refl (pos_pos k h)⟩ hcovered
      · rw [hsearch]
        simp only
        exact ⟨hnodes.insert (pos_pos k h) hle hbefore hbehind hcovered hfree (by rwa [family_pos]),
          fun m => covered_insertIdx_iff hle⟩

end PruneList

/-! ## Reading the shift -/

namespace PruneList

/-- The loop finds out whether a node is above a position. -/
theorem upLoop_iff {n fuel k h : ℕ} (hn : 0 < n) (hfuel : n < fuel + pos k h) :
    upLoop n fuel (pos k h) = true ↔ Under n (pos k h) ∧ n ≠ pos k h := by
  rw [← under_parent_iff hn]
  induction fuel generalizing k h with
  | zero =>
    refine iff_of_false Bool.false_ne_true fun hunder => ?_
    have hup := pos_lt_parent k h
    have hle := hunder.1
    omega
  | succ fuel ih =>
    have hup := pos_lt_parent k h
    simp only [upLoop, family_pos]
    split
    · next heq =>
      rw [← heq]
      exact iff_of_true rfl (Under.refl hn)
    · next hne =>
      split
      · next hlt => exact iff_of_false Bool.false_ne_true fun hunder => absurd hunder.1 (not_le.mpr hlt)
      · rw [ih (by omega), under_parent_iff hn]
        exact and_iff_left hne

/-- A position is in a tree of the list, or it has a place in it. -/
theorem prunedPos_spec {self : PruneList} (hself : Compact self.prunedNodes) {q : ℕ} (hq : 0 < q) :
    (Covered self.prunedNodes q ∧ self.prunedPos q = none) ∨
      (¬ Covered self.prunedNodes q ∧ ∃ idx, self.prunedPos q = some idx ∧
        (∀ n ∈ self.prunedNodes.take idx, n < q) ∧ ∀ n ∈ self.prunedNodes.drop idx, q < n) := by
  obtain ⟨k, h, rfl⟩ := exists_pos hq
  rw [prunedPos]
  rcases binarySearch_spec hself.sorted (pos k h) with
    ⟨idx, hsearch, hidx⟩ | ⟨idx, hsearch, -, -, hbefore, hbehind⟩
  · rw [hsearch]
    exact .inl ⟨⟨_, List.mem_of_getElem? hidx, Under.refl hq⟩, rfl⟩
  · rw [hsearch]
    simp only
    have hbelow : ∀ n ∈ self.prunedNodes.take idx, ¬ Under n (pos k h) := fun n hn hunder =>
      absurd hunder.1 (not_le.mpr (hbefore n hn))
    cases hdrop : self.prunedNodes.drop idx with
    | nil =>
      have hnone : self.prunedNodes[idx]? = none := by rw [← List.head?_drop, hdrop, List.head?_nil]
      rw [hnone]
      refine .inr ⟨?_, idx, rfl, hbefore, hbehind⟩
      rintro ⟨n, hn, hunder⟩
      rw [← List.take_append_drop idx self.prunedNodes, hdrop, List.append_nil] at hn
      exact hbelow n hn hunder
    | cons next rest =>
      have hnext : self.prunedNodes[idx]? = some next := by rw [← List.head?_drop, hdrop, List.head?_cons]
      have hin : next ∈ self.prunedNodes := List.mem_of_getElem? hnext
      have hgt : pos k h < next := hbehind next (by rw [hdrop]; exact List.mem_cons_self)
      have hloop := upLoop_iff (k := k) (h := h) (hself.positive next hin)
        (show next < next + 1 + pos k h by omega)
      -- only the next root can be above the position: a later one would be above the next root, too
      have hcovered : Covered self.prunedNodes (pos k h) ↔ Under next (pos k h) := by
        refine ⟨?_, fun hunder => ⟨next, hin, hunder⟩⟩
        rintro ⟨n, hn, hunder⟩
        have hsplit := hn
        rw [← List.take_append_drop idx self.prunedNodes, hdrop, List.mem_append] at hsplit
        rcases hsplit with hlow | hhigh
        · exact absurd hunder (hbelow n hlow)
        · rcases List.mem_cons.mp hhigh with rfl | hhigh
          · exact hunder
          · have hrest := hself.sorted.sublist (List.drop_sublist idx _)
            rw [hdrop, List.pairwise_cons] at hrest
            have hlt := hrest.1 n hhigh
            have habove : Under n next := ⟨hlt.le, lt_trans hunder.2 (by omega)⟩
            exact absurd (hself.apart n hn next hin habove) hlt.ne'
      rw [hnext, hcovered]
      simp only
      by_cases hunder : Under next (pos k h)
      · rw [if_pos (hloop.mpr ⟨hunder, hgt.ne'⟩)]
        exact .inl ⟨hunder, rfl⟩
      · rw [if_neg fun hup => hunder (hloop.mp hup).1]
        exact .inr ⟨hunder, idx, rfl, hbefore, hbehind⟩

/-- The trees of roots before a position, which are apart, have as many nodes as their sizes say. -/
theorem card_covered {row : List ℕ} (hrow : Compact row) {q : ℕ} (hbefore : ∀ n ∈ row, n < q) :
    ((Finset.range q).filter (Covered row)).card =
      (row.map fun n => (1 <<< (bintreePostorderHeight n + 1)) - 1).sum := by
  induction row with
  | nil => simp [Covered]
  | cons n row ih =>
    have hn : 0 < n := hrow.positive n (by simp)
    have htail : Compact row := hrow.sublist (List.sublist_cons_self n row)
    have hsize : size (bintreePostorderHeight n) ≤ n := by
      obtain ⟨k, h, rfl⟩ := exists_pos hn
      rw [bintreePostorderHeight_pos]
      exact size_le_pos k h
    have hsplit : (Finset.range q).filter (Covered (n :: row)) =
        Finset.Ioc (n - size (bintreePostorderHeight n)) n ∪ (Finset.range q).filter (Covered row) := by
      ext p
      have hlt := hbefore n (by simp)
      have hunder : Under n p ↔ n - size (bintreePostorderHeight n) < p ∧ p ≤ n := by
        rw [Under]
        omega
      simp only [Covered, Finset.mem_filter, Finset.mem_range, Finset.mem_union, Finset.mem_Ioc,
        List.exists_mem_cons_iff, hunder]
      constructor
      · rintro ⟨hp, hn | hrest⟩
        · exact .inl hn
        · exact .inr ⟨hp, hrest⟩
      · rintro (hn | ⟨hp, hrest⟩)
        · exact ⟨lt_of_le_of_lt hn.2 hlt, .inl hn⟩
        · exact ⟨hp, .inr hrest⟩
    have hdisjoint : Disjoint (Finset.Ioc (n - size (bintreePostorderHeight n)) n)
        ((Finset.range q).filter (Covered row)) := by
      rw [Finset.disjoint_left]
      intro p hp hcovered
      obtain ⟨hlow, hhigh⟩ := Finset.mem_Ioc.mp hp
      obtain ⟨-, m, hm, hmp⟩ := Finset.mem_filter.mp hcovered
      have hnp : Under n p := ⟨hhigh, by omega⟩
      have hlt : n < m := (List.pairwise_cons.mp hrow.sorted).1 m hm
      have hin : m ∈ n :: row := List.mem_cons_of_mem _ hm
      rcases hnp.or hn (hrow.positive m hin) hmp with habove | habove
      · exact absurd (hrow.apart n (by simp) m hin habove) hlt.ne
      · exact absurd (hrow.apart m hin n (by simp) habove) hlt.ne'
    rw [hsplit, Finset.card_union_of_disjoint hdisjoint, Nat.card_Ioc,
      ih htail fun m hm => hbefore m (List.mem_cons_of_mem _ hm), List.map_cons, List.sum_cons, Nat.one_shiftLeft,
      ← size]
    omega

/-- A position outside of the trees is shifted by the number of positions before it that are in one. -/
theorem getShift_spec {self : PruneList} (hself : Compact self.prunedNodes) {q : ℕ} (hq : 0 < q) :
    self.getShift q =
      if Covered self.prunedNodes q then none
      else some ((Finset.range q).filter (Covered self.prunedNodes)).card := by
  rcases prunedPos_spec hself hq with ⟨hcovered, hpos⟩ | ⟨hcovered, idx, hpos, hbefore, hbehind⟩
  · rw [getShift, hpos, if_pos hcovered]
    rfl
  · have htake : (Finset.range q).filter (Covered self.prunedNodes) =
        (Finset.range q).filter (Covered (self.prunedNodes.take idx)) := by
      refine Finset.filter_congr fun p hp => ⟨?_, fun ⟨n, hn, hunder⟩ => ⟨n, List.mem_of_mem_take hn, hunder⟩⟩
      rintro ⟨n, hn, hunder⟩
      have hsplit := hn
      rw [← List.take_append_drop idx self.prunedNodes, List.mem_append] at hsplit
      rcases hsplit with hlow | hhigh
      · exact ⟨n, hlow, hunder⟩
      · have hlt := Finset.mem_range.mp hp
        exact absurd ⟨n, hn, (hbehind n hhigh).le, lt_trans hunder.2 (by omega)⟩ hcovered
    rw [getShift, hpos, if_neg hcovered, htake, Option.map_some,
      card_covered (hself.sublist (List.take_sublist _ _)) hbefore]

end PruneList

/-! ## The compact storage -/

namespace PruneList

variable {α : Type}

/-- What is kept of nodes that were stored by their position, from a position on. -/
def keepFrom (self : PruneList) (first : ℕ) (stored : List α) : List α :=
  ((stored.zipIdx first).filter fun (_, p) => (self.prunedPos p).isSome).map Prod.fst

/-- What is kept of all nodes. -/
def keep (self : PruneList) (stored : List α) : List α := self.keepFrom 1 stored

theorem keepFrom_append (self : PruneList) (first : ℕ) (front back : List α) :
    self.keepFrom first (front ++ back) = self.keepFrom first front ++ self.keepFrom (first + front.length) back := by
  simp only [keepFrom, List.zipIdx_append, List.filter_append, List.map_append]

/-- The kept and the removed nodes are all nodes. -/
theorem length_keep {self : PruneList} (hself : Compact self.prunedNodes) (stored : List α) :
    (self.keep stored).length + ((Finset.range (stored.length + 1)).filter (Covered self.prunedNodes)).card =
      stored.length := by
  induction stored using List.reverseRecOn with
  | nil =>
    have hzero : ¬ Covered self.prunedNodes 0 := fun ⟨n, hn, hunder⟩ =>
      lt_irrefl 0 (hunder.positive (hself.positive n hn))
    have hnone : (Finset.range 1).filter (Covered self.prunedNodes) = ∅ := by
      rw [Finset.range_one, Finset.filter_singleton, if_neg hzero]
    rw [List.length_nil, zero_add, hnone]
    rfl
  | append_singleton stored x ih =>
    rw [keep] at ih ⊢
    rw [keepFrom_append, List.length_append, List.length_append, List.length_singleton, Finset.range_add_one,
      Finset.filter_insert]
    have hnext : 0 < stored.length + 1 := Nat.succ_pos _
    rcases prunedPos_spec hself hnext with ⟨hcovered, hpos⟩ | ⟨hcovered, idx, hpos, -⟩
    · have hlast : self.keepFrom (1 + stored.length) [x] = [] := by
        simp [keepFrom, Nat.add_comm 1, hpos]
      have hnot : stored.length + 1 ∉ (Finset.range (stored.length + 1)).filter (Covered self.prunedNodes) := by
        simp
      rw [hlast, if_pos hcovered, Finset.card_insert_of_notMem hnot, List.length_nil]
      omega
    · have hlast : self.keepFrom (1 + stored.length) [x] = [x] := by
        simp [keepFrom, Nat.add_comm 1, hpos]
      rw [hlast, if_neg hcovered, List.length_singleton]
      omega

/-- A node that was not removed is found at its shifted place. -/
theorem getElem?_keep {self : PruneList} (hself : Compact self.prunedNodes) (stored : List α) {q shift : ℕ}
    (hq : 0 < q) (hle : q ≤ stored.length) (hshift : self.getShift q = some shift) :
    (self.keep stored)[q - 1 - shift]? = stored[q - 1]? := by
  rcases prunedPos_spec hself hq with ⟨-, hpos⟩ | ⟨hcovered, idx, hpos, -⟩
  · rw [getShift, hpos] at hshift
    cases hshift
  · rw [getShift_spec hself hq, if_neg hcovered, Option.some.injEq] at hshift
    have hlt : q - 1 < stored.length := by omega
    have hfront : (stored.take (q - 1)).length = q - 1 := List.length_take_of_le hlt.le
    have hlength := length_keep hself (stored.take (q - 1))
    have hsucc : q - 1 + 1 = q := by omega
    have hone : 1 + (q - 1) = q := by omega
    rw [hfront, hsucc, hshift] at hlength
    have hnode : self.keepFrom q (stored.drop (q - 1)) =
        stored[q - 1] :: self.keepFrom (q + 1) (stored.drop (q - 1 + 1)) := by
      rw [List.drop_eq_getElem_cons hlt, keepFrom, keepFrom, List.zipIdx_cons,
        List.filter_cons_of_pos (by simp [hpos]), List.map_cons]
    have hsplit : self.keep stored =
        self.keep (stored.take (q - 1)) ++ stored[q - 1] :: self.keepFrom (q + 1) (stored.drop (q - 1 + 1)) := by
      have happend := self.keepFrom_append 1 (stored.take (q - 1)) (stored.drop (q - 1))
      rw [List.take_append_drop, hfront, hone, hnode] at happend
      exact happend
    rw [hsplit, List.getElem?_append_right (by omega), List.getElem?_eq_getElem hlt]
    have hindex : q - 1 - shift - (self.keep (stored.take (q - 1))).length = 0 := by omega
    rw [hindex]
    rfl

end PruneList

/-! ## Leaves in any order -/

/-- All leaves in the tree of a position are among the leaves. -/
def Gone (leaves : List ℕ) (p : ℕ) : Prop := 0 < p ∧ ∀ m, Under p (pos m 0) → m ∈ leaves

namespace PruneList

/-- The list after leaves were added. -/
def ofLeaves (leaves : List ℕ) : PruneList := leaves.foldl (fun list m => list.add (pos m 0)) new

/-- A leaf that is in no tree is added. -/
theorem add_leaf {nodes : List ℕ} (hnodes : Compact nodes) {m : ℕ} (hcovered : ¬ Covered nodes (pos m 0)) :
    Compact (add { prunedNodes := nodes } (pos m 0)).prunedNodes ∧
      ∀ l, Covered (add { prunedNodes := nodes } (pos m 0)).prunedNodes (pos l 0) ↔
        Covered nodes (pos l 0) ∨ l = m := by
  have hunder (p : ℕ) : Under (pos m 0) p ↔ p = pos m 0 := by
    rw [Under, bintreePostorderHeight_pos, size_zero]
    omega
  have hfree : ∀ n ∈ nodes, ¬ Under (pos m 0) n := by
    intro n hn h
    obtain rfl := (hunder n).mp h
    exact hcovered ⟨_, hn, Under.refl (pos_pos m 0)⟩
  obtain ⟨hcompact, hleaves⟩ := addLoop_spec hnodes (Nat.lt_succ_self nodes.length) hcovered hfree
  refine ⟨hcompact, fun l => (hleaves l).trans (or_congr_right ?_)⟩
  rw [hunder]
  exact ⟨fun heq => (pos_inj heq).1, fun heq => by rw [heq]⟩

/-- The leaves in the trees of the list are those that were added. -/
theorem ofLeaves_spec {leaves : List ℕ} (hnodup : leaves.Nodup) : Compact (ofLeaves leaves).prunedNodes ∧
    ∀ l, Covered (ofLeaves leaves).prunedNodes (pos l 0) ↔ l ∈ leaves := by
  induction leaves using List.reverseRecOn with
  | nil => exact ⟨Compact.nil, fun l => by simp [ofLeaves, new, Covered]⟩
  | append_singleton leaves m ih =>
    obtain ⟨hleaves, -, hdisjoint⟩ := List.nodup_append.mp hnodup
    obtain ⟨hcompact, hcovered⟩ := ih hleaves
    have hm : m ∉ leaves := fun h => hdisjoint m h m (by simp) rfl
    obtain ⟨hadd, hall⟩ := add_leaf hcompact (m := m) fun h => hm ((hcovered m).mp h)
    rw [ofLeaves, List.foldl_concat, ← ofLeaves]
    refine ⟨hadd, fun l => (hall l).trans ?_⟩
    rw [hcovered, List.mem_append, List.mem_singleton]

/-- A list without siblings has every tree of which it has all leaves. -/
theorem covered_of_leaves {nodes : List ℕ} (hnodes : Compact nodes) {k h : ℕ}
    (hleaves : ∀ m, Under (pos k h) (pos m 0) → Covered nodes (pos m 0)) : Covered nodes (pos k h) := by
  induction h generalizing k with
  | zero => exact hleaves k (Under.refl (pos_pos k 0))
  | succ h ih =>
    have hleft : Under (pos k (h + 1)) (pos (2 * k) h) :=
      under_pos_iff.mpr (below_succ_iff.mpr (.inr (.inl (Below.refl _ _))))
    have hright : Under (pos k (h + 1)) (pos (2 * k + 1) h) :=
      under_pos_iff.mpr (below_succ_iff.mpr (.inr (.inr (Below.refl _ _))))
    have hpos := pos_pos k (h + 1)
    obtain ⟨n, hn, hnl⟩ := ih (k := 2 * k) fun m hm => hleaves m (hleft.trans hpos hm)
    obtain ⟨n', hn', hnr⟩ := ih (k := 2 * k + 1) fun m hm => hleaves m (hright.trans hpos hm)
    have hhalf : 2 * k / 2 = k := by omega
    have hhalf' : (2 * k + 1) / 2 = k := by omega
    have hup := under_parent_iff (k := 2 * k) (h := h) (hnodes.positive n hn)
    have hup' := under_parent_iff (k := 2 * k + 1) (h := h) (hnodes.positive n' hn')
    rw [hhalf] at hup
    rw [hhalf'] at hup'
    by_cases heq : n = pos (2 * k) h
    · by_cases heq' : n' = pos (2 * k + 1) h
      · -- both children would be in the list
        refine absurd ?_ (hnodes.single n hn)
        rw [heq, family_left, ← heq']
        exact hn'
      · exact ⟨n', hn', hup'.mpr ⟨hnr, heq'⟩⟩
    · exact ⟨n, hn, hup.mpr ⟨hnl, heq⟩⟩

/-- A position is in a tree of the list exactly when all its leaves were added. -/
theorem covered_iff_gone {leaves : List ℕ} (hnodup : leaves.Nodup) {p : ℕ} :
    Covered (ofLeaves leaves).prunedNodes p ↔ Gone leaves p := by
  obtain ⟨hcompact, hleaves⟩ := ofLeaves_spec hnodup
  constructor
  · rintro ⟨n, hn, hunder⟩
    have hpos := hcompact.positive n hn
    exact ⟨hunder.positive hpos, fun m hm => (hleaves m).mp ⟨n, hn, hunder.trans hpos hm⟩⟩
  · rintro ⟨hp, hall⟩
    obtain ⟨k, h, rfl⟩ := exists_pos hp
    exact covered_of_leaves hcompact fun m hm => (hleaves m).mpr (hall m hm)

/-- What a position is translated to: nothing when all its leaves were added. Otherwise it is shifted by the
number of such positions before it, and a compact storage has its node at the shifted place. -/
structure Translates (leaves : List ℕ) (q : ℕ) : Prop where
  gone : Gone leaves q → (ofLeaves leaves).getShift q = none
  shift : ¬ Gone leaves q → (ofLeaves leaves).getShift q = some {p | p < q ∧ Gone leaves p}.ncard
  read : ∀ {α : Type} (stored : List α) (shift : ℕ), q ≤ stored.length →
    (ofLeaves leaves).getShift q = some shift →
    ((ofLeaves leaves).keep stored)[q - 1 - shift]? = stored[q - 1]?

/-- After different leaves were added in any order, the list is compact and every position is translated. It
is only about leaves: `check_compact` of the sum tree adds all positions of its removal log, inner nodes as
well, and the shift it gets afterwards counts some of them twice. -/
theorem shift_of_leaves {leaves : List ℕ} (hnodup : leaves.Nodup) :
    Compact (ofLeaves leaves).prunedNodes ∧ ∀ q, 0 < q → Translates leaves q := by
  have hcompact := (ofLeaves_spec hnodup).1
  refine ⟨hcompact, fun q hq => ?_⟩
  have hspec := getShift_spec hcompact hq
  refine ⟨fun hgone => ?_, fun hgone => ?_, fun stored shift hle hshift => ?_⟩
  · rw [hspec, if_pos ((covered_iff_gone hnodup).mpr hgone)]
  · have hset : {p | p < q ∧ Gone leaves p} =
        ((Finset.range q).filter (Covered (ofLeaves leaves).prunedNodes) : Set ℕ) := by
      ext p
      rw [Set.mem_ofPred_eq, Finset.mem_coe, Finset.mem_filter, Finset.mem_range, covered_iff_gone hnodup]
    rw [hspec, if_neg fun h => hgone ((covered_iff_gone hnodup).mp h), hset, Set.ncard_coe_finset]
  · exact getElem?_keep hcompact stored hq hle hshift

/-- Four leaves out of their order, and the position behind their tree. -/
theorem shift_of_leaves_four : Compact (ofLeaves [0, 1, 3, 2]).prunedNodes ∧ Translates [0, 1, 3, 2] 9 := by
  obtain ⟨hcompact, htranslates⟩ := shift_of_leaves (show [0, 1, 3, 2].Nodup by decide)
  exact ⟨hcompact, htranslates 9 (by decide)⟩

/-- The removed positions of a tree of four leaves as the sum tree logs and adds them, its inner nodes after
their leaves: node 6 is merged into the root and then put into the list again, and the shift behind is 10 for
the 7 nodes that are gone. -/
example : ((ofLeaves [0, 1, 2, 3]).getShift 8, ([1, 2, 3, 4, 5, 6, 7].foldl add new).getShift 8) =
    (some 7, some 10) := by decide

end PruneList

end Pmmr

end GrinDotnet
