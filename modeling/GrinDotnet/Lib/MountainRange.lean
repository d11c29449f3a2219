import Mathlib.Algebra.BigOperators.Group.List.Basic
import Mathlib.Data.Nat.Bitwise
import GrinDotnet.Lib.PostOrder

/-!
# Mountain ranges

Values in the nodes of the row of trees over a list of leaves: a parent holds what its children make
together. Nodes are stored by their position, and a stored node may be forgotten.

Results:
1. `tree_append`: the value of a node that is there does not depend on later leaves.
2. `map_bagged`: the trees are worth what the leaves are worth together, for a worth that respects the
   sums of neighbouring leaves.
3. `Kept.push`: a leaf is stored with the parents it completes.
4. `Kept.prune`: forgetting a chain of ancestors keeps what later leaves need.
-/

namespace PostOrder

variable {α : Type*}

/-- The children of a node that is there are there. -/
theorem children_le {k h n : ℕ} (hle : (k + 1) * 2 ^ (h + 1) ≤ n) :
    (2 * k + 1) * 2 ^ h ≤ n ∧ (2 * k + 1 + 1) * 2 ^ h ≤ n := by
  have hright : (2 * k + 1 + 1) * 2 ^ h = (k + 1) * 2 ^ (h + 1) := by ring
  have hleft : (2 * k + 1) * 2 ^ h ≤ (2 * k + 1 + 1) * 2 ^ h := Nat.mul_le_mul_right _ (Nat.le_succ _)
  omega

theorem le_of_parent {k h n : ℕ} (hle : (k / 2 + 1) * 2 ^ (h + 1) ≤ n) : (k + 1) * 2 ^ h ≤ n := by
  obtain ⟨hleft, hright⟩ := children_le hle
  rcases Nat.even_or_odd' k with ⟨j, rfl | rfl⟩
  · have hhalf : 2 * j / 2 = j := by omega
    rwa [hhalf] at hleft
  · have hhalf : (2 * j + 1) / 2 = j := by omega
    rwa [hhalf] at hright

/-- The sibling of a node whose parent is there is there. -/
theorem sibling_le {k h n : ℕ} (hle : (k / 2 + 1) * 2 ^ (h + 1) ≤ n) : ((k ^^^ 1) + 1) * 2 ^ h ≤ n := by
  refine le_of_parent ?_
  rcases Nat.even_or_odd' k with ⟨j, rfl | rfl⟩
  · have hhalf : 2 * j / 2 = (2 * j + 1) / 2 := by omega
    rwa [Nat.xor_one_of_even (even_two_mul j), ← hhalf]
  · have hhalf : (2 * j + 1) / 2 = 2 * j / 2 := by omega
    rwa [Nat.xor_one_of_odd (odd_two_mul_add_one j), Nat.add_sub_cancel, ← hhalf]

/-! ## Values -/

section Values

variable (add : α → α → α)

/-- What two nodes make together, if both are there. -/
def join : Option α → Option α → Option α
  | some l, some r => some (add l r)
  | _, _ => none

/-- The value of node `k` of height `h` over a list of leaves. -/
def tree (vals : List α) : ℕ → ℕ → Option α
  | k, 0 => vals[k]?
  | k, h + 1 => join add (tree vals (2 * k) h) (tree vals (2 * k + 1) h)

/-- The value of a row of trees, from the left. -/
def bagStep (ret peak : Option α) : Option α :=
  match ret, peak with
  | none, x => x
  | some l, none => some l
  | some l, some r => some (add l r)

/-- The value of all trees over a list of leaves. -/
def bagged (vals : List α) : Option α :=
  (peakNodes vals.length).foldl (fun ret node => bagStep add ret (tree add vals node.1 node.2)) none

variable {add}

/-- A node with all its leaves has a value. -/
theorem exists_tree (add : α → α → α) {vals : List α} {k h : ℕ} (hle : (k + 1) * 2 ^ h ≤ vals.length) :
    ∃ x, tree add vals k h = some x := by
  induction h generalizing k with
  | zero => exact ⟨_, List.getElem?_eq_getElem (by omega)⟩
  | succ h ih =>
    obtain ⟨hleft, hright⟩ := children_le hle
    obtain ⟨l, hl⟩ := ih hleft
    obtain ⟨r, hr⟩ := ih hright
    exact ⟨add l r, by rw [tree, hl, hr, join]⟩

/-- Later leaves do not change a node that has all its leaves. -/
theorem tree_append {vals : List α} (later : List α) {k h : ℕ} (hle : (k + 1) * 2 ^ h ≤ vals.length) :
    tree add (vals ++ later) k h = tree add vals k h := by
  induction h generalizing k with
  | zero => exact List.getElem?_append_left (by omega)
  | succ h ih =>
    obtain ⟨hleft, hright⟩ := children_le hle
    rw [tree, tree, ih hleft, ih hright]

theorem foldl_bagStep_some (add : α → α → α) (vals : List α) (row : List (ℕ × ℕ)) (x : α) :
    ∃ y, row.foldl (fun ret node => bagStep add ret (tree add vals node.1 node.2)) (some x) = some y := by
  induction row generalizing x with
  | nil => exact ⟨x, rfl⟩
  | cons node row ih =>
    rw [List.foldl_cons]
    cases tree add vals node.1 node.2 with
    | none => exact ih x
    | some y => exact ih (add x y)

/-- The trees have a value when there are leaves. -/
theorem exists_bagged (add : α → α → α) {vals : List α} (hvals : vals ≠ []) : ∃ x, bagged add vals = some x := by
  have hn : vals.length ≠ 0 := List.length_eq_zero_iff.not.mpr hvals
  have hlow := Nat.log2_self_le hn
  have hbit : vals.length.testBit vals.length.log2 = true :=
    Nat.testBit_of_two_pow_le_and_two_pow_add_one_gt hlow Nat.lt_log2_self
  have hfirst : (vals.length / 2 ^ vals.length.log2 - 1, vals.length.log2) ∈ peakNodes vals.length := by
    rw [peakNodes, peaksBelow, if_pos hbit]
    exact List.mem_cons_self
  obtain ⟨x, hx⟩ := exists_tree add (of_mem_peaksBelow hfirst).1
  obtain ⟨y, hy⟩ := foldl_bagStep_some add vals (peaksBelow vals.length vals.length.log2) x
  refine ⟨y, ?_⟩
  rw [bagged, peakNodes, peaksBelow, if_pos hbit, List.foldl_cons, hx]
  exact hy

/-! ## The worth of trees -/

variable {M : Type*} [AddMonoid M] {f : α → M} {good : M → Prop} {vals : List α}

/-- A worth of values that adds up where the sum is good. -/
def AddsUp (add : α → α → α) (f : α → M) (good : M → Prop) : Prop :=
  ∀ a b, good (f a + f b) → f (add a b) = f a + f b

/-- Any neighbouring leaves have a good sum. -/
def GoodBlocks (f : α → M) (good : M → Prop) (vals : List α) : Prop :=
  ∀ block, block <:+: vals → block ≠ [] → good (block.map f).sum

theorem GoodBlocks.take_drop (hgood : GoodBlocks f good vals) {start n : ℕ} (hn : 0 < n)
    (hle : start + n ≤ vals.length) : good (((vals.drop start).take n).map f).sum := by
  refine hgood _ ((List.take_prefix _ _).isInfix.trans (List.drop_suffix _ _).isInfix) ?_
  rw [← List.length_pos_iff, List.length_take, List.length_drop]
  omega

theorem GoodBlocks.take (hgood : GoodBlocks f good vals) {n : ℕ} (hn : 0 < n) (hle : n ≤ vals.length) :
    good ((vals.take n).map f).sum := by
  have hlength : 0 + n ≤ vals.length := by omega
  have h := hgood.take_drop hn hlength
  rwa [List.drop_zero] at h

/-- A node is worth what the leaves below are worth together. -/
theorem map_tree (hf : AddsUp add f good) (hgood : GoodBlocks f good vals) {k h : ℕ}
    (hle : (k + 1) * 2 ^ h ≤ vals.length) :
    (tree add vals k h).map f = some (((vals.drop (k * 2 ^ h)).take (2 ^ h)).map f).sum := by
  induction h generalizing k with
  | zero =>
    have hlt : k < vals.length := by omega
    have htake : (vals[k] :: vals.drop (k + 1)).take 1 = [vals[k]] := rfl
    rw [tree, List.getElem?_eq_getElem hlt, pow_zero, mul_one, List.drop_eq_getElem_cons hlt, Option.map_some,
      htake, List.map_singleton, List.sum_singleton]
  | succ h ih =>
    obtain ⟨hleft, hright⟩ := children_le hle
    obtain ⟨l, hl⟩ := exists_tree add hleft
    obtain ⟨r, hr⟩ := exists_tree add hright
    have hfl := ih hleft
    have hfr := ih hright
    rw [hl, Option.map_some, Option.some.injEq] at hfl
    rw [hr, Option.map_some, Option.some.injEq] at hfr
    have hstart : k * 2 ^ (h + 1) = 2 * k * 2 ^ h := by ring
    have hnext : (2 * k + 1) * 2 ^ h = 2 * k * 2 ^ h + 2 ^ h := by ring
    have hdouble : 2 ^ (h + 1) = 2 ^ h + 2 ^ h := by ring
    have hend : (k + 1) * 2 ^ (h + 1) = k * 2 ^ (h + 1) + 2 ^ (h + 1) := by ring
    -- the leaves of the two children are those of the parent
    have hsum : f l + f r = (((vals.drop (k * 2 ^ (h + 1))).take (2 ^ (h + 1))).map f).sum := by
      rw [hfl, hfr, hstart, hnext, hdouble, List.take_add, List.map_append, List.sum_append, List.drop_drop]
    have hblock : good (f l + f r) := by
      rw [hsum]
      exact hgood.take_drop (Nat.two_pow_pos _) (hend ▸ hle)
    rw [tree, hl, hr, join, Option.map_some, hf l r hblock, hsum]

/-- The trees from a height down continue what the trees before are worth. -/
theorem foldl_peaksBelow (hf : AddsUp add f good) (hgood : GoodBlocks f good vals) (i : ℕ) {ret : Option α}
    (hret : ret.elim 0 f = ((vals.take (vals.length / 2 ^ i * 2 ^ i)).map f).sum) :
    ((peaksBelow vals.length i).foldl (fun ret node => bagStep add ret (tree add vals node.1 node.2)) ret).elim 0 f =
      (vals.map f).sum := by
  induction i generalizing ret with
  | zero => simpa [peaksBelow] using hret
  | succ i ih =>
    rw [peaksBelow]
    split
    · next hbit =>
      have hdiv := div_of_testBit hbit
      generalize vals.length / 2 ^ (i + 1) = q at hdiv hret
      have hle : (2 * q + 1) * 2 ^ i ≤ vals.length := hdiv ▸ Nat.div_mul_le_self _ _
      obtain ⟨x, hx⟩ := exists_tree add hle
      have hfx := map_tree hf hgood hle
      rw [hx, Option.map_some, Option.some.injEq] at hfx
      have hstart : q * 2 ^ (i + 1) = 2 * q * 2 ^ i := by ring
      have hnext : (2 * q + 1) * 2 ^ i = 2 * q * 2 ^ i + 2 ^ i := by ring
      -- the next tree stands over the leaves that follow
      have hsum : ret.elim 0 f + f x = ((vals.take ((2 * q + 1) * 2 ^ i)).map f).sum := by
        rw [hret, hfx, hstart, hnext, List.take_add, List.map_append, List.sum_append]
      have hstep : (bagStep add ret (some x)).elim 0 f = ret.elim 0 f + f x := by
        cases ret with
        | none => simp [bagStep]
        | some l =>
          refine hf l x ?_
          have hblock : good ((vals.take ((2 * q + 1) * 2 ^ i)).map f).sum :=
            hgood.take (Nat.mul_pos (Nat.succ_pos _) (Nat.two_pow_pos i)) hle
          rwa [← hsum] at hblock
      rw [List.foldl_cons, hdiv, Nat.add_sub_cancel, hx]
      exact ih (by rw [hstep, hsum, hdiv])
    · next hbit =>
      have hdiv := div_of_not_testBit hbit
      have hstart : vals.length / 2 ^ (i + 1) * 2 ^ (i + 1) = 2 * (vals.length / 2 ^ (i + 1)) * 2 ^ i := by ring
      exact ih (by rw [hret, hstart, hdiv])

/-- All trees are worth what the leaves are worth together. -/
theorem map_bagged (hf : AddsUp add f good) (hgood : GoodBlocks f good vals) (hvals : vals ≠ []) :
    (bagged add vals).map f = some (vals.map f).sum := by
  have hzero : vals.length / 2 ^ (vals.length.log2 + 1) = 0 := Nat.div_eq_of_lt Nat.lt_log2_self
  have hnone : (none : Option α).elim 0 f =
      ((vals.take (vals.length / 2 ^ (vals.length.log2 + 1) * 2 ^ (vals.length.log2 + 1))).map f).sum := by
    simp [hzero]
  have hall := foldl_peaksBelow hf hgood (vals.length.log2 + 1) hnone
  rw [← peakNodes, ← bagged] at hall
  obtain ⟨x, hx⟩ := exists_bagged add hvals
  rw [hx, Option.elim_some] at hall
  rw [hx, Option.map_some, hall]

end Values

/-! ## What is stored -/

/-- Forget what is stored at positions. -/
def forget (stored : List (Option α)) (positions : List ℕ) : List (Option α) :=
  positions.foldl (fun stored n => stored.set (n - 1) none) stored

@[simp] theorem length_forget (stored : List (Option α)) (positions : List ℕ) :
    (forget stored positions).length = stored.length := by
  induction positions generalizing stored with
  | nil => rfl
  | cons n positions ih => rw [forget, List.foldl_cons, ← forget, ih, List.length_set]

theorem getElem?_forget {stored : List (Option α)} {positions : List ℕ} (hpos : ∀ p ∈ positions, 0 < p) {q : ℕ}
    (hq : 0 < q) : (forget stored positions)[q - 1]? =
      if q ∈ positions then (stored[q - 1]?).map fun _ => none else stored[q - 1]? := by
  induction positions generalizing stored with
  | nil => rfl
  | cons n positions ih =>
    have hn := hpos n (by simp)
    rw [forget, List.foldl_cons, ← forget, ih fun p hp => hpos p (List.mem_cons_of_mem _ hp), List.getElem?_set]
    by_cases hqn : q = n
    · subst hqn
      by_cases hlt : q - 1 < stored.length
      · simp [hlt]
      · simp [hlt]
    · have hne : n - 1 ≠ q - 1 := by omega
      rw [if_neg hne]
      simp only [List.mem_cons, hqn, false_or]

/-- The stored nodes over the leaves: every node is stored by its position or forgotten. A parent is forgotten
behind its children only, a tree that has no parent yet is never forgotten, and neither is a leaf nobody asked
for. -/
structure Kept (add : α → α → α) (vals : List α) (asked : ℕ → Prop) (stored : List (Option α)) : Prop where
  length_eq : stored.length = nodes vals.length
  there : ∀ k h, (k + 1) * 2 ^ h ≤ vals.length → stored[pos k h - 1]? = some (tree add vals k h) ∨
    (stored[pos k h - 1]? = some none ∧ (k / 2 + 1) * 2 ^ (h + 1) ≤ vals.length)
  closed : ∀ k h, (k + 1) * 2 ^ (h + 1) ≤ vals.length → stored[pos k (h + 1) - 1]? = some none →
    stored[pos (2 * k) h - 1]? = some none ∧ stored[pos (2 * k + 1) h - 1]? = some none
  asked : ∀ m < vals.length, stored[pos m 0 - 1]? = some none → asked m

namespace Kept

variable {add : α → α → α} {vals : List α} {asked : ℕ → Prop} {stored : List (Option α)}

theorem empty : Kept add [] (fun _ => False) [] where
  length_eq := rfl
  there k h hle := by
    have hpos : 0 < (k + 1) * 2 ^ h := Nat.mul_pos (Nat.succ_pos k) (Nat.two_pow_pos h)
    exact absurd hle (not_le.mpr hpos)
  closed k h hle := by
    have hpos : 0 < (k + 1) * 2 ^ (h + 1) := Nat.mul_pos (Nat.succ_pos k) (Nat.two_pow_pos _)
    exact absurd hle (not_le.mpr hpos)
  asked m hm := absurd hm (Nat.not_lt_zero m)

theorem mono {asked' : ℕ → Prop} (hkept : Kept add vals asked stored) (h : ∀ m, asked m → asked' m) :
    Kept add vals asked' stored :=
  { hkept with asked := fun m hm hnone => h m (hkept.asked m hm hnone) }

/-- A node that is there is stored before the end. -/
theorem pos_le (hkept : Kept add vals asked stored) {k h : ℕ} (hle : (k + 1) * 2 ^ h ≤ vals.length) :
    pos k h - 1 < stored.length := by
  have hpos := pos_pos k h
  have hnodes := pos_le_nodes_iff.mpr hle
  rw [hkept.length_eq]
  omega

/-- A tree without a parent is stored. -/
theorem peak (hkept : Kept add vals asked stored) {k h : ℕ} (hle : (k + 1) * 2 ^ h ≤ vals.length)
    (hlt : vals.length < (k / 2 + 1) * 2 ^ (h + 1)) : stored[pos k h - 1]? = some (tree add vals k h) := by
  rcases hkept.there k h hle with h' | ⟨-, h'⟩
  · exact h'
  · exact absurd h' (not_le.mpr hlt)

/-- When a node is forgotten, all leaves below were asked for. -/
theorem asked_of_none (hkept : Kept add vals asked stored) {k h : ℕ} (hle : (k + 1) * 2 ^ h ≤ vals.length)
    (hnone : stored[pos k h - 1]? = some none) {m : ℕ} (hm : m / 2 ^ h = k) : asked m := by
  induction h generalizing k with
  | zero =>
    obtain rfl : m = k := by simpa using hm
    exact hkept.asked m (by omega) hnone
  | succ h ih =>
    obtain ⟨hleft, hright⟩ := children_le hle
    obtain ⟨hnl, hnr⟩ := hkept.closed k h hle hnone
    rw [pow_succ, ← Nat.div_div_eq_div_mul] at hm
    have hcases : m / 2 ^ h = 2 * k ∨ m / 2 ^ h = 2 * k + 1 := by omega
    rcases hcases with hm | hm
    · exact ih hleft hnl hm
    · exact ih hright hnr hm

/-- A leaf is stored behind the others, and the parents it completes behind it: the nodes whose last leaf it
is. -/
theorem push (hkept : Kept add vals asked stored) (x : α) {added : List (Option α)} {t : ℕ}
    (hlength : added.length = t + 1)
    (hend : nodes (vals.length + 1) = nodes vals.length + (t + 1))
    (hadded : ∀ i ≤ t, added[i]? = some (tree add (vals ++ [x]) (vals.length / 2 ^ i) i)) :
    Kept add (vals ++ [x]) asked (stored ++ added) := by
  have hlen : (vals ++ [x]).length = vals.length + 1 := by simp
  -- a node that was not there yet ends at the new leaf, and is among the added ones
  have hnew (k h : ℕ) (hle : (k + 1) * 2 ^ h ≤ vals.length + 1) (hgt : ¬ (k + 1) * 2 ^ h ≤ vals.length) :
      (stored ++ added)[pos k h - 1]? = some (tree add (vals ++ [x]) k h) := by
    have heq : (k + 1) * 2 ^ h = vals.length + 1 := by omega
    have hlast := pos_last_leaf k h
    have hleaf := pos_leaf vals.length
    have hnodes : pos k h ≤ nodes (vals.length + 1) := pos_le_nodes_iff.mpr hle
    rw [heq, Nat.add_sub_cancel] at hlast
    have hdiv : vals.length / 2 ^ h = k := by
      have hpos := Nat.two_pow_pos h
      have hmul : (k + 1) * 2 ^ h = k * 2 ^ h + 2 ^ h := by ring
      exact Nat.div_eq_of_lt_le (by omega) (by omega)
    have hindex : pos k h - 1 = stored.length + h := by
      rw [hkept.length_eq]
      omega
    rw [hindex, List.getElem?_append_right (Nat.le_add_right _ _), Nat.add_sub_cancel_left,
      hadded h (by omega), hdiv]
  have hold (k h : ℕ) (hle : (k + 1) * 2 ^ h ≤ vals.length) :
      (stored ++ added)[pos k h - 1]? = stored[pos k h - 1]? :=
    List.getElem?_append_left (hkept.pos_le hle)
  refine ⟨?_, fun k h hle => ?_, fun k h hle hnone => ?_, fun m hm hnone => ?_⟩
  · rw [List.length_append, hkept.length_eq, hlength, hlen, hend]
  · rw [hlen] at hle ⊢
    by_cases hle' : (k + 1) * 2 ^ h ≤ vals.length
    · rw [hold k h hle', tree_append [x] hle']
      exact (hkept.there k h hle').imp id fun ⟨hnone, hparent⟩ => ⟨hnone, by omega⟩
    · exact .inl (hnew k h hle hle')
  · rw [hlen] at hle
    by_cases hle' : (k + 1) * 2 ^ (h + 1) ≤ vals.length
    · obtain ⟨hleft, hright⟩ := children_le hle'
      rw [hold _ _ hle'] at hnone
      rw [hold _ _ hleft, hold _ _ hright]
      exact hkept.closed k h hle' hnone
    · have hthere : (k + 1) * 2 ^ (h + 1) ≤ (vals ++ [x]).length := hlen ▸ hle
      obtain ⟨y, hy⟩ := exists_tree add hthere
      rw [hnew k (h + 1) hle hle', hy] at hnone
      cases hnone
  · rw [hlen] at hm
    by_cases hle' : (m + 1) * 2 ^ 0 ≤ vals.length
    · rw [hold _ _ hle'] at hnone
      exact hkept.asked m (by omega) hnone
    · have hthere : (m + 1) * 2 ^ 0 ≤ (vals ++ [x]).length := by omega
      obtain ⟨y, hy⟩ := exists_tree add hthere
      rw [hnew m 0 (by omega) hle', hy] at hnone
      cases hnone

/-- A leaf is forgotten together with the parents that lose both children. -/
theorem prune (hkept : Kept add vals asked stored) {m len : ℕ}
    (hparent : ∀ i < len, (m / 2 ^ (i + 1) + 1) * 2 ^ (i + 1) ≤ vals.length)
    (hsibling : ∀ i, i + 1 < len → stored[pos (m / 2 ^ i ^^^ 1) i - 1]? = some none) :
    Kept add vals (fun j => asked j ∨ j = m) (forget stored ((List.range len).map fun i => pos (m / 2 ^ i) i)) := by
  have hmem (k h : ℕ) : pos k h ∈ (List.range len).map (fun i => pos (m / 2 ^ i) i) ↔ h < len ∧ k = m / 2 ^ h := by
    rw [List.mem_map]
    constructor
    · rintro ⟨i, hi, heq⟩
      obtain ⟨rfl, rfl⟩ := pos_inj heq
      exact ⟨List.mem_range.mp hi, rfl⟩
    · rintro ⟨hlt, rfl⟩
      exact ⟨h, List.mem_range.mpr hlt, rfl⟩
  have hpositive : ∀ p ∈ (List.range len).map (fun i => pos (m / 2 ^ i) i), 0 < p := by
    rintro p hp
    obtain ⟨i, -, rfl⟩ := List.mem_map.mp hp
    exact pos_pos _ _
  have hget (k h : ℕ) : (forget stored ((List.range len).map fun i => pos (m / 2 ^ i) i))[pos k h - 1]? =
      if h < len ∧ k = m / 2 ^ h then (stored[pos k h - 1]?).map fun _ => none else stored[pos k h - 1]? := by
    rw [getElem?_forget hpositive (pos_pos k h)]
    simp only [hmem]
  -- what was forgotten stays so
  have hstay (k h : ℕ) (hnone : stored[pos k h - 1]? = some none) :
      (forget stored ((List.range len).map fun i => pos (m / 2 ^ i) i))[pos k h - 1]? = some none := by
    rw [hget, hnone, Option.map_some, ite_self]
  have hgone (k h : ℕ) (hle : (k + 1) * 2 ^ h ≤ vals.length) (hin : h < len ∧ k = m / 2 ^ h) :
      (forget stored ((List.range len).map fun i => pos (m / 2 ^ i) i))[pos k h - 1]? = some none := by
    rw [hget, if_pos hin, List.getElem?_eq_getElem (hkept.pos_le hle), Option.map_some]
  refine ⟨by rw [length_forget, hkept.length_eq], fun k h hle => ?_, fun k h hle hnone => ?_, fun j hj hnone => ?_⟩
  · by_cases hin : h < len ∧ k = m / 2 ^ h
    · refine .inr ⟨hgone k h hle hin, ?_⟩
      have hp := hparent h hin.1
      rw [pow_succ, ← Nat.div_div_eq_div_mul, ← hin.2, ← pow_succ] at hp
      exact hp
    · rw [hget, if_neg hin]
      exact hkept.there k h hle
  · obtain ⟨hleft, hright⟩ := children_le hle
    by_cases hin : h + 1 < len ∧ k = m / 2 ^ (h + 1)
    · -- one child goes with its parent, the other one was gone before
      have hsib := hsibling h hin.1
      have hk := hin.2
      rw [pow_succ, ← Nat.div_div_eq_div_mul] at hk
      rcases Nat.even_or_odd' (m / 2 ^ h) with ⟨j, hj | hj⟩
      · obtain rfl : j = k := by omega
        rw [hj, Nat.xor_one_of_even (even_two_mul j)] at hsib
        exact ⟨hgone _ _ hleft ⟨by omega, hj.symm⟩, hstay _ _ hsib⟩
      · obtain rfl : j = k := by omega
        rw [hj, Nat.xor_one_of_odd (odd_two_mul_add_one j), Nat.add_sub_cancel] at hsib
        exact ⟨hstay _ _ hsib, hgone _ _ hright ⟨by omega, hj.symm⟩⟩
    · rw [hget, if_neg hin] at hnone
      obtain ⟨hnl, hnr⟩ := hkept.closed k h hle hnone
      exact ⟨hstay _ _ hnl, hstay _ _ hnr⟩
  · by_cases hin : 0 < len ∧ j = m / 2 ^ 0
    · exact .inr (by simpa using hin.2)
    · rw [hget, if_neg hin] at hnone
      exact .inl (hkept.asked j hj hnone)

end Kept

end PostOrder
