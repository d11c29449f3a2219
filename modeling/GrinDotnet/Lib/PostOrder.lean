import Mathlib.Data.Nat.Digits.Lemmas
import Mathlib.Tactic.Ring

/-!
# Postorder positions

The nodes of an endless row of perfect binary trees, numbered in postorder from 1: a node comes behind its
two children. Node `k` of height `h` stands over the leaves from `k * 2 ^ h` on, and its children are the
nodes `2 * k` and `2 * k + 1` of the height below.

Results:
1. `pos_two_mul_add_one`, `pos_two_mul`: where parents and siblings are.
2. `exists_pos`, `pos_inj`: every position is the one of a single node.
3. `pos_le_nodes_iff`: which nodes are there when there are `n` leaves.
4. `peaksBelow_cases`: one tree behind the other over the first leaves.
5. `below_iff`: the nodes below a node stand right before it.
-/

namespace PostOrder

/-- How many binary digits are one. -/
def ones (n : ℕ) : ℕ := (Nat.digits 2 n).sum

@[simp] theorem ones_zero : ones 0 = 0 := by simp [ones]

@[simp] theorem ones_two_mul (n : ℕ) : ones (2 * n) = ones n := by
  rcases Nat.eq_zero_or_pos n with rfl | h
  · rfl
  · rw [ones, Nat.digits_base_mul (by decide) h, List.sum_cons, zero_add, ones]

@[simp] theorem ones_two_mul_add_one (n : ℕ) : ones (2 * n + 1) = ones n + 1 := by
  rw [ones, Nat.digits_def' (by decide) (Nat.succ_pos _), List.sum_cons]
  have hmod : (2 * n + 1) % 2 = 1 := by omega
  have hdiv : (2 * n + 1) / 2 = n := by omega
  rw [hmod, hdiv, ones, Nat.add_comm]

theorem ones_le (n : ℕ) : ones n ≤ n := Nat.digit_sum_le 2 n

/-- The next number has at most one digit more that is one. -/
theorem ones_succ_le (n : ℕ) : ones (n + 1) ≤ ones n + 1 := by
  induction n using Nat.strong_induction_on with
  | _ n ih =>
    rcases Nat.even_or_odd' n with ⟨m, rfl | rfl⟩
    · rw [ones_two_mul_add_one, ones_two_mul]
    · have hnext : 2 * m + 1 + 1 = 2 * (m + 1) := by ring
      have hm := ih m (by omega)
      rw [hnext, ones_two_mul, ones_two_mul_add_one]
      omega

@[simp] theorem ones_mul_two_pow (n h : ℕ) : ones (n * 2 ^ h) = ones n := by
  induction h with
  | zero => rw [pow_zero, mul_one]
  | succ h ih =>
    have hstep : n * 2 ^ (h + 1) = 2 * (n * 2 ^ h) := by ring
    rw [hstep, ones_two_mul, ih]

theorem ones_two_pow_add {m k : ℕ} (h : k < 2 ^ m) : ones (2 ^ m + k) = ones k + 1 := by
  induction m generalizing k with
  | zero =>
    obtain rfl : k = 0 := by simpa using h
    rw [pow_zero, add_zero, ones_zero]
    exact ones_two_mul_add_one 0
  | succ m ih =>
    have hpow : 2 ^ (m + 1) = 2 * 2 ^ m := by ring
    rcases Nat.even_or_odd' k with ⟨j, rfl | rfl⟩
    · have hsum : 2 ^ (m + 1) + 2 * j = 2 * (2 ^ m + j) := by ring
      rw [hsum, ones_two_mul, ones_two_mul, ih (by omega)]
    · have hsum : 2 ^ (m + 1) + (2 * j + 1) = 2 * (2 ^ m + j) + 1 := by ring
      rw [hsum, ones_two_mul_add_one, ones_two_mul_add_one, ih (by omega)]

/-! ## Positions -/

/-- The position of node `k` of height `h`. -/
def pos (k h : ℕ) : ℕ := 2 ^ (h + 1) * (k + 1) - ones k - 1

/-- The position without subtractions. -/
theorem pos_add (k h : ℕ) : pos k h + ones k + 1 = 2 ^ (h + 1) * (k + 1) := by
  have hones := ones_le k
  have hpow : 2 * (k + 1) ≤ 2 ^ (h + 1) * (k + 1) :=
    Nat.mul_le_mul_right _ (Nat.le_self_pow (Nat.succ_ne_zero h) 2)
  rw [pos]
  omega

theorem pos_pos (k h : ℕ) : 0 < pos k h := by
  have hadd := pos_add k h
  have hones := ones_le k
  have hpow : 2 * (k + 1) ≤ 2 ^ (h + 1) * (k + 1) :=
    Nat.mul_le_mul_right _ (Nat.le_self_pow (Nat.succ_ne_zero h) 2)
  omega

theorem pos_zero (h : ℕ) : pos 0 h + 1 = 2 ^ (h + 1) := by
  have hadd := pos_add 0 h
  rw [ones_zero] at hadd
  omega

/-- A parent is right behind its right child. -/
theorem pos_two_mul_add_one (k h : ℕ) : pos (2 * k + 1) h + 1 = pos k (h + 1) := by
  have hchild := pos_add (2 * k + 1) h
  have hparent := pos_add k (h + 1)
  rw [ones_two_mul_add_one] at hchild
  have hpow : 2 ^ (h + 1) * (2 * k + 1 + 1) = 2 ^ (h + 1 + 1) * (k + 1) := by ring
  omega

/-- A parent is a whole tree behind its left child. -/
theorem pos_two_mul (k h : ℕ) : pos (2 * k) h + 2 ^ (h + 1) = pos k (h + 1) := by
  have hchild := pos_add (2 * k) h
  have hparent := pos_add k (h + 1)
  rw [ones_two_mul] at hchild
  have hpow : 2 ^ (h + 1) * (2 * k + 1) + 2 ^ (h + 1) = 2 ^ (h + 1 + 1) * (k + 1) := by ring
  omega

/-- A parent is behind its children. -/
theorem pos_lt_parent (k h : ℕ) : pos k h < pos (k / 2) (h + 1) := by
  rcases Nat.even_or_odd' k with ⟨j, rfl | rfl⟩
  · have hhalf : 2 * j / 2 = j := by omega
    have hstep := pos_two_mul j h
    have hpos := Nat.two_pow_pos (h + 1)
    rw [hhalf]
    omega
  · have hhalf : (2 * j + 1) / 2 = j := by omega
    have hstep := pos_two_mul_add_one j h
    rw [hhalf]
    omega

/-- Behind a left child the leaves of its sibling begin. -/
theorem pos_leaf_of_even (k h : ℕ) : pos (2 * k) h + 1 = pos ((2 * k + 1) * 2 ^ h) 0 := by
  have hchild := pos_add (2 * k) h
  have hleaf := pos_add ((2 * k + 1) * 2 ^ h) 0
  rw [ones_two_mul] at hchild
  rw [ones_mul_two_pow, ones_two_mul_add_one] at hleaf
  have hpow : 2 ^ (0 + 1) * ((2 * k + 1) * 2 ^ h + 1) = 2 ^ (h + 1) * (2 * k + 1) + 2 := by ring
  omega

/-- Positions of one height go up. -/
theorem pos_lt_pos {j k : ℕ} (h : ℕ) (hlt : j < k) : pos j h < pos k h := by
  induction k with
  | zero => exact absurd hlt (Nat.not_lt_zero _)
  | succ k ih =>
    have hstep : pos k h < pos (k + 1) h := by
      have hk := pos_add k h
      have hk' := pos_add (k + 1) h
      have hones := ones_succ_le k
      have hpow : 2 ^ (h + 1) * (k + 1 + 1) = 2 ^ (h + 1) * (k + 1) + 2 ^ (h + 1) := by ring
      have htwo : 2 ≤ 2 ^ (h + 1) := Nat.le_self_pow (Nat.succ_ne_zero h) 2
      omega
    rcases Nat.lt_succ_iff_lt_or_eq.mp hlt with h' | rfl
    · exact lt_trans (ih h') hstep
    · exact hstep

theorem pos_le_pos {j k : ℕ} (h : ℕ) (hle : j ≤ k) : pos j h ≤ pos k h := by
  rcases Nat.lt_or_eq_of_le hle with hlt | rfl
  · exact (pos_lt_pos h hlt).le
  · exact le_rfl

/-- Every position is the one of a node. -/
theorem exists_pos {p : ℕ} (hp : 0 < p) : ∃ k h, pos k h = p := by
  induction p with
  | zero => exact absurd hp (lt_irrefl 0)
  | succ p ih =>
    rcases Nat.eq_zero_or_pos p with rfl | hp
    · exact ⟨0, 0, rfl⟩
    · obtain ⟨k, h, rfl⟩ := ih hp
      rcases Nat.even_or_odd' k with ⟨j, rfl | rfl⟩
      · exact ⟨_, _, (pos_leaf_of_even j h).symm⟩
      · exact ⟨_, _, (pos_two_mul_add_one j h).symm⟩

/-! ## Moving to the left -/

/-- A node that is not on the leftmost branch, seen from the tree to the left. -/
theorem pos_two_pow_add {m k : ℕ} (hk : k < 2 ^ m) (h : ℕ) :
    pos (2 ^ m + k) h + 1 = pos k h + 2 ^ (h + 1 + m) := by
  have hright := pos_add (2 ^ m + k) h
  have hleft := pos_add k h
  rw [ones_two_pow_add hk] at hright
  have hpow : 2 ^ (h + 1) * (2 ^ m + k + 1) = 2 ^ (h + 1 + m) + 2 ^ (h + 1) * (k + 1) := by ring
  omega

theorem pos_lt_two_pow {m k : ℕ} (hk : k < 2 ^ m) (h : ℕ) : pos k h < 2 ^ (h + 1 + m) := by
  have hadd := pos_add k h
  have hpow : 2 ^ (h + 1 + m) = 2 ^ (h + 1) * 2 ^ m := by ring
  have hle : 2 ^ (h + 1) * (k + 1) ≤ 2 ^ (h + 1) * 2 ^ m := Nat.mul_le_mul_left _ hk
  omega

/-- The leading digit of the position of a node that is not on the leftmost branch, which is not followed by
ones only. -/
theorem pos_bounds {m k : ℕ} (hk : k < 2 ^ m) (h : ℕ) :
    2 ^ (h + 1 + m) ≤ pos (2 ^ m + k) h ∧ pos (2 ^ m + k) h + 1 < 2 ^ (h + 1 + m + 1) := by
  have hstep := pos_two_pow_add hk h
  have hpos := pos_pos k h
  have hlt := pos_lt_two_pow hk h
  have hpow : 2 ^ (h + 1 + m + 1) = 2 * 2 ^ (h + 1 + m) := by ring
  omega

/-- A number is zero or has a leading digit. -/
theorem eq_zero_or_exists (k : ℕ) : k = 0 ∨ ∃ m j, j < 2 ^ m ∧ k = 2 ^ m + j := by
  rcases Nat.eq_zero_or_pos k with rfl | h
  · exact .inl rfl
  · refine .inr ⟨Nat.log 2 k, k - 2 ^ Nat.log 2 k, ?_, ?_⟩
    · have hlt : k < 2 ^ (Nat.log 2 k + 1) := Nat.lt_pow_succ_log_self (by decide) k
      have hpow : 2 ^ (Nat.log 2 k + 1) = 2 * 2 ^ Nat.log 2 k := by ring
      omega
    · have hle : 2 ^ Nat.log 2 k ≤ k := Nat.pow_log_le_self 2 h.ne'
      omega

/-- A position is the one of a single node. -/
theorem pos_inj {k h k' h' : ℕ} (heq : pos k h = pos k' h') : k = k' ∧ h = h' := by
  induction k using Nat.strong_induction_on generalizing k' with
  | _ k ih =>
    rcases eq_zero_or_exists k with rfl | ⟨m, j, hj, rfl⟩
    · have hzero := pos_zero h
      rcases eq_zero_or_exists k' with rfl | ⟨m', j', hj', rfl⟩
      · have hzero' := pos_zero h'
        have hpow : 2 ^ (h + 1) = 2 ^ (h' + 1) := by omega
        have hexp := Nat.pow_right_injective (le_refl 2) hpow
        omega
      · exfalso
        obtain ⟨hge, hlt⟩ := pos_bounds hj' h'
        have hlow : h' + 1 + m' < h + 1 := (Nat.pow_lt_pow_iff_right (by decide : 1 < 2)).mp (by omega)
        have hhigh : h + 1 < h' + 1 + m' + 1 := (Nat.pow_lt_pow_iff_right (by decide : 1 < 2)).mp (by omega)
        omega
    · obtain ⟨hge, hlt⟩ := pos_bounds hj h
      rcases eq_zero_or_exists k' with rfl | ⟨m', j', hj', rfl⟩
      · exfalso
        have hzero' := pos_zero h'
        have hlow : h + 1 + m < h' + 1 := (Nat.pow_lt_pow_iff_right (by decide : 1 < 2)).mp (by omega)
        have hhigh : h' + 1 < h + 1 + m + 1 := (Nat.pow_lt_pow_iff_right (by decide : 1 < 2)).mp (by omega)
        omega
      · obtain ⟨hge', hlt'⟩ := pos_bounds hj' h'
        have hlow : h + 1 + m < h' + 1 + m' + 1 :=
          (Nat.pow_lt_pow_iff_right (by decide : 1 < 2)).mp (by omega)
        have hhigh : h' + 1 + m' < h + 1 + m + 1 :=
          (Nat.pow_lt_pow_iff_right (by decide : 1 < 2)).mp (by omega)
        have hexp : h + 1 + m = h' + 1 + m' := by omega
        have hstep := pos_two_pow_add hj h
        have hstep' := pos_two_pow_add hj' h'
        rw [hexp] at hstep
        have hpos := Nat.two_pow_pos m
        obtain ⟨rfl, rfl⟩ := ih j (by omega) (show pos j h = pos j' h' by omega)
        obtain rfl : m = m' := by omega
        exact ⟨rfl, rfl⟩

/-! ## Complete nodes -/

/-- How many nodes stand over the first leaves when every node is there whose leaves are. -/
def nodes (n : ℕ) : ℕ := 2 * n - ones n

theorem pos_leaf (n : ℕ) : pos n 0 = nodes n + 1 := by
  have hones := ones_le n
  simp only [pos, nodes]
  omega

/-- The last leaf below a node. -/
theorem pos_last_leaf (k h : ℕ) : pos ((k + 1) * 2 ^ h - 1) 0 + h = pos k h := by
  induction h generalizing k with
  | zero => simp
  | succ h ih =>
    have hstep : (k + 1) * 2 ^ (h + 1) = (2 * k + 1 + 1) * 2 ^ h := by ring
    rw [hstep, ← pos_two_mul_add_one, ← ih (2 * k + 1)]
    rfl

/-- The next leaf is behind a node. -/
theorem pos_lt_next_leaf (k h : ℕ) : pos k h < pos ((k + 1) * 2 ^ h) 0 := by
  have hnode := pos_add k h
  have hleaf := pos_add ((k + 1) * 2 ^ h) 0
  have hones := ones_succ_le k
  rw [ones_mul_two_pow] at hleaf
  have hpow : 2 ^ (0 + 1) * ((k + 1) * 2 ^ h + 1) = 2 ^ (h + 1) * (k + 1) + 2 := by ring
  omega

/-- A node is among the first ones exactly when its leaves are. -/
theorem pos_le_nodes_iff {k h n : ℕ} : pos k h ≤ nodes n ↔ (k + 1) * 2 ^ h ≤ n := by
  have hleaf := pos_leaf n
  constructor
  · intro hle
    by_contra hlt
    have hmono := pos_le_pos 0 (show n ≤ (k + 1) * 2 ^ h - 1 by omega)
    have hlast := pos_last_leaf k h
    omega
  · intro hle
    have hnext := pos_lt_next_leaf k h
    have hmono := pos_le_pos 0 hle
    omega

/-! ## The trees over the first leaves -/

/-- The trees below a height in the row over `n` leaves: one for each binary digit that is one. -/
def peaksBelow (n : ℕ) : ℕ → List (ℕ × ℕ)
  | 0 => []
  | i + 1 => if n.testBit i then (n / 2 ^ i - 1, i) :: peaksBelow n i else peaksBelow n i

/-- The trees over `n` leaves, the highest one first. -/
def peakNodes (n : ℕ) : List (ℕ × ℕ) := peaksBelow n (n.log2 + 1)

/-- The first tree and those behind it. -/
theorem peaksBelow_cases (n i : ℕ) : peaksBelow n i = [] ∨
    ∃ h < i, n.testBit h = true ∧ peaksBelow n i = (n / 2 ^ h - 1, h) :: peaksBelow n h := by
  induction i with
  | zero => exact .inl rfl
  | succ i ih =>
    rw [peaksBelow]
    split
    · next hbit => exact .inr ⟨i, Nat.lt_succ_self i, hbit, rfl⟩
    · exact ih.imp id fun ⟨h, hlt, hbit, heq⟩ => ⟨h, Nat.lt_succ_of_lt hlt, hbit, heq⟩

/-- A digit that is one is an odd quotient. -/
theorem div_of_testBit {n i : ℕ} (h : n.testBit i = true) : n / 2 ^ i = 2 * (n / 2 ^ (i + 1)) + 1 := by
  rw [Nat.testBit_eq_decide_div_mod_eq, decide_eq_true_eq] at h
  rw [pow_succ, ← Nat.div_div_eq_div_mul]
  omega

theorem div_of_not_testBit {n i : ℕ} (h : ¬ n.testBit i = true) : n / 2 ^ i = 2 * (n / 2 ^ (i + 1)) := by
  rw [Nat.testBit_eq_decide_div_mod_eq, decide_eq_true_eq] at h
  rw [pow_succ, ← Nat.div_div_eq_div_mul]
  omega

/-- A tree in the row is there, and its parent is not. -/
theorem of_mem_peaksBelow {n i k h : ℕ} (hmem : (k, h) ∈ peaksBelow n i) :
    (k + 1) * 2 ^ h ≤ n ∧ n < (k / 2 + 1) * 2 ^ (h + 1) := by
  induction i with
  | zero => cases hmem
  | succ i ih =>
    rw [peaksBelow] at hmem
    split at hmem
    · next hbit =>
      rcases List.mem_cons.mp hmem with heq | hmem
      · obtain ⟨rfl, rfl⟩ := Prod.mk.inj heq
        have hdiv := div_of_testBit hbit
        have hle := Nat.div_mul_le_self n (2 ^ h)
        have hlt := Nat.lt_mul_of_div_lt (Nat.lt_succ_self (n / 2 ^ (h + 1))) (Nat.two_pow_pos (h + 1))
        have hpeak : n / 2 ^ h - 1 + 1 = n / 2 ^ h := by omega
        have hhalf : (n / 2 ^ h - 1) / 2 = n / 2 ^ (h + 1) := by omega
        rw [hpeak, hhalf]
        exact ⟨hle, hlt⟩
      · exact ih hmem
    · exact ih hmem

/-! ## Subtrees -/

/-- The nodes of a whole tree. -/
def size (h : ℕ) : ℕ := 2 ^ (h + 1) - 1

@[simp] theorem size_zero : size 0 = 1 := rfl

theorem size_succ (h : ℕ) : size (h + 1) = 2 * size h + 1 := by
  have hpos := Nat.two_pow_pos (h + 1)
  have hpow : 2 ^ (h + 1 + 1) = 2 * 2 ^ (h + 1) := by ring
  simp only [size]
  omega

theorem pos_left (k h : ℕ) : pos (2 * k) h + size h + 1 = pos k (h + 1) := by
  have hpos := Nat.two_pow_pos (h + 1)
  have hleft := pos_two_mul k h
  simp only [size]
  omega

theorem size_le_pos (k h : ℕ) : size h ≤ pos k h := by
  have hzero := pos_zero h
  have hmono := pos_le_pos h (Nat.zero_le k)
  simp only [size]
  omega

/-- `Below j i k h`: node `j` of height `i` is in the tree under node `k` of height `h`. -/
def Below (j i k h : ℕ) : Prop := i ≤ h ∧ j / 2 ^ (h - i) = k

theorem Below.refl (k h : ℕ) : Below k h k h := ⟨le_rfl, by simp⟩

theorem Below.trans {j i k h l g : ℕ} (hk : Below j i k h) (hl : Below k h l g) : Below j i l g := by
  obtain ⟨hle, rfl⟩ := hk
  obtain ⟨hle', rfl⟩ := hl
  have hexp : g - i = h - i + (g - h) := by omega
  exact ⟨le_trans hle hle', by rw [hexp, pow_add, Nat.div_div_eq_div_mul]⟩

/-- The nodes above a node are above each other. -/
theorem Below.of_le {j i k h l g : ℕ} (hk : Below j i k h) (hl : Below j i l g) (hle : h ≤ g) : Below k h l g := by
  obtain ⟨hik, rfl⟩ := hk
  obtain ⟨-, rfl⟩ := hl
  have hexp : g - i = h - i + (g - h) := by omega
  exact ⟨hle, by rw [hexp, pow_add, Nat.div_div_eq_div_mul]⟩

/-- The nodes above a parent are those above its child, without the child. -/
theorem below_parent_iff {j i k h : ℕ} : Below (j / 2) (i + 1) k h ↔ Below j i k h ∧ ¬ (j = k ∧ i = h) := by
  constructor
  · rintro ⟨hle, rfl⟩
    have hexp : h - i = h - (i + 1) + 1 := by omega
    refine ⟨⟨by omega, ?_⟩, by omega⟩
    rw [hexp, pow_succ', Nat.div_div_eq_div_mul]
  · rintro ⟨⟨hle, rfl⟩, hne⟩
    rcases Nat.lt_or_eq_of_le hle with hlt | rfl
    · have hexp : h - i = h - (i + 1) + 1 := by omega
      refine ⟨hlt, ?_⟩
      rw [hexp, pow_succ', Nat.div_div_eq_div_mul]
    · exact absurd ⟨by simp, rfl⟩ hne

/-- A node below is the node itself or below one of the children. -/
theorem below_succ_iff {j i k h : ℕ} :
    Below j i k (h + 1) ↔ (j = k ∧ i = h + 1) ∨ Below j i (2 * k) h ∨ Below j i (2 * k + 1) h := by
  constructor
  · rintro ⟨hle, hdiv⟩
    rcases Nat.lt_or_eq_of_le hle with hlt | rfl
    · right
      have hexp : h + 1 - i = h - i + 1 := by omega
      rw [hexp, pow_succ, ← Nat.div_div_eq_div_mul] at hdiv
      have hcases : j / 2 ^ (h - i) = 2 * k ∨ j / 2 ^ (h - i) = 2 * k + 1 := by omega
      exact hcases.imp (fun hj => ⟨by omega, hj⟩) (fun hj => ⟨by omega, hj⟩)
    · left
      simpa using hdiv
  · rintro (⟨rfl, rfl⟩ | ⟨hle, hdiv⟩ | ⟨hle, hdiv⟩)
    · exact Below.refl _ _
    · refine ⟨by omega, ?_⟩
      have hexp : h + 1 - i = h - i + 1 := by omega
      rw [hexp, pow_succ, ← Nat.div_div_eq_div_mul, hdiv]
      omega
    · refine ⟨by omega, ?_⟩
      have hexp : h + 1 - i = h - i + 1 := by omega
      rw [hexp, pow_succ, ← Nat.div_div_eq_div_mul, hdiv]
      omega

/-- The nodes below a node stand right before it, with nothing in between. -/
theorem below_iff {j i k h : ℕ} :
    Below j i k h ↔ pos j i ≤ pos k h ∧ pos k h < pos j i + size h := by
  induction h generalizing k with
  | zero =>
    constructor
    · rintro ⟨hle, hdiv⟩
      obtain rfl : i = 0 := by omega
      have hjk : j = k := by simpa using hdiv
      rw [hjk, size_zero]
      omega
    · rintro ⟨hle, hlt⟩
      rw [size_zero] at hlt
      obtain ⟨rfl, rfl⟩ := pos_inj (show pos j i = pos k 0 by omega)
      exact Below.refl _ _
  | succ h ih =>
    have hright := pos_two_mul_add_one k h
    have hleft := pos_left k h
    have hsize := size_succ h
    rw [below_succ_iff, ih, ih]
    constructor
    · rintro (⟨rfl, rfl⟩ | ⟨hle, hlt⟩ | ⟨hle, hlt⟩) <;> omega
    · rintro ⟨hle, hlt⟩
      by_cases heq : pos j i = pos k (h + 1)
      · exact .inl (pos_inj heq)
      · right
        omega

end PostOrder
