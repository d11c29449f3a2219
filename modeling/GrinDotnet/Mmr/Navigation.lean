import Mathlib.Data.Nat.Bitwise
import GrinDotnet.Lib.PostOrder

/-!
# Navigation in a mountain range

The functions of the original node's `pmmr.rs` that find heights, relatives and peaks from the digits of a
position. Positions begin at 1. They are the lengths of vectors, so they never come near the end of 64 bits.

Results:
1. `bintreePostorderHeight_pos`: the height read off the digits is the one in the tree.
2. `family_left`, `family_right`: parents and siblings.
3. `peaks_nodes`: the peaks are the trees of the binary digits of the number of leaves.
-/

namespace GrinDotnet

namespace Pmmr

open PostOrder

/-! ## Digits -/

/-- The loop of `most_significant_pos`. -/
def mostSignificantLoop (num : ℕ) : ℕ → ℕ → ℕ → ℕ
  | 0, _, pos => pos
  | fuel + 1, bit, pos => if num ≥ bit then mostSignificantLoop num fuel (bit <<< 1) (pos + 1) else pos

/-- `most_significant_pos`. -/
def mostSignificantPos (num : ℕ) : ℕ := mostSignificantLoop num (num + 1) 1 0

/-- The loop of `all_ones`. -/
def allOnesLoop (num : ℕ) : ℕ → ℕ → Bool
  | 0, _ => true
  | fuel + 1, bit =>
    if num ≥ bit then if num &&& bit = 0 then false else allOnesLoop num fuel (bit <<< 1) else true

/-- `all_ones`. -/
def allOnes (num : ℕ) : Bool := if num = 0 then false else allOnesLoop num (num + 1) 1

/-- `bintree_jump_left`. -/
def bintreeJumpLeft (num : ℕ) : ℕ := num - ((1 <<< (mostSignificantPos num - 1)) - 1)

/-- The loop of `bintree_postorder_height`. -/
def heightLoop : ℕ → ℕ → ℕ
  | 0, h => h
  | fuel + 1, h => if allOnes h then h else heightLoop fuel (bintreeJumpLeft h)

/-- `bintree_postorder_height`. It fails at 0, which is no position. -/
def bintreePostorderHeight (num : ℕ) : ℕ := mostSignificantPos (heightLoop num num) - 1

/-- `bintree_jump_left_sibling`. -/
def bintreeJumpLeftSibling (num : ℕ) : ℕ := num - ((1 <<< (bintreePostorderHeight num + 1)) - 1)

/-- `bintree_jump_right_sibling`. -/
def bintreeJumpRightSibling (num : ℕ) : ℕ := num + (1 <<< (bintreePostorderHeight num + 1)) - 1

/-- `bintree_move_down_left`. -/
def bintreeMoveDownLeft (num : ℕ) : Option ℕ :=
  let height := bintreePostorderHeight num
  if height = 0 then none else some (num - 1 <<< height)

/-- `family`: parent and sibling. -/
def family (pos : ℕ) : ℕ × ℕ :=
  let posHeight := bintreePostorderHeight pos
  let nextHeight := bintreePostorderHeight (pos + 1)
  if nextHeight > posHeight then (pos + 1, bintreeJumpLeftSibling pos)
  else (bintreeJumpRightSibling pos + 1, bintreeJumpRightSibling pos)

/-! ## Peaks -/

/-- The loop of `peaks` for the top. -/
def topLoop (num : ℕ) : ℕ → ℕ → ℕ
  | 0, top => top
  | fuel + 1, top => if top - 1 ≤ num then topLoop num fuel (top <<< 1) else top

/-- The inner loop of `peaks`: down to the left until a node is there. -/
def downLoop (num : ℕ) : ℕ → ℕ → Option ℕ
  | 0, _ => none
  | fuel + 1, peak =>
    if peak > num then
      match bintreeMoveDownLeft peak with
      | some p => downLoop num fuel p
      | none => none
    else some peak

/-- The outer loop of `peaks`. -/
def peaksLoop (num : ℕ) : ℕ → ℕ → List ℕ
  | 0, _ => []
  | fuel + 1, peak =>
    match downLoop num (num + 1) (bintreeJumpRightSibling peak) with
    | some p => p :: peaksLoop num fuel p
    | none => []

/-- `peaks`. -/
def peaks (num : ℕ) : List ℕ :=
  if bintreePostorderHeight (num + 1) > bintreePostorderHeight num then []
  else
    let top := (topLoop num (num + 2) 1 >>> 1) - 1
    if top = 0 then [1] else top :: peaksLoop num (num + 1) top

/-! ## Heights -/

theorem mostSignificantLoop_eq {num m : ℕ} (hge : 2 ^ m ≤ num) (hlt : num < 2 ^ (m + 1)) {fuel i : ℕ}
    (hi : i ≤ m + 1) (hfuel : m + 1 - i < fuel) : mostSignificantLoop num fuel (2 ^ i) i = m + 1 := by
  induction fuel generalizing i with
  | zero => exact absurd hfuel (Nat.not_lt_zero _)
  | succ fuel ih =>
    rw [mostSignificantLoop]
    rcases Nat.lt_or_eq_of_le hi with h | rfl
    · have hbit : 2 ^ i ≤ num := le_trans (Nat.pow_le_pow_right (by decide) (by omega)) hge
      have hshift : 2 ^ i <<< 1 = 2 ^ (i + 1) := by rw [Nat.shiftLeft_eq, pow_one, pow_succ]
      rw [if_pos hbit, hshift]
      exact ih (by omega) (by omega)
    · rw [if_neg (by omega)]

theorem mostSignificantPos_eq {num m : ℕ} (hge : 2 ^ m ≤ num) (hlt : num < 2 ^ (m + 1)) :
    mostSignificantPos num = m + 1 := by
  have hfuel : m < 2 ^ m := Nat.lt_two_pow_self
  have hloop := mostSignificantLoop_eq hge hlt (Nat.zero_le _) (show m + 1 - 0 < num + 1 by omega)
  exact hloop

/-- The loop looks at every digit. -/
theorem allOnesLoop_iff {num fuel i : ℕ} (hfuel : num < 2 ^ (i + fuel)) :
    allOnesLoop num fuel (2 ^ i) = true ↔ ∀ j, i ≤ j → 2 ^ j ≤ num → num.testBit j = true := by
  induction fuel generalizing i with
  | zero =>
    refine iff_of_true rfl fun j hj hle => ?_
    have hpow : 2 ^ i ≤ 2 ^ j := Nat.pow_le_pow_right (by decide) hj
    rw [add_zero] at hfuel
    omega
  | succ fuel ih =>
    have hshift : 2 ^ i <<< 1 = 2 ^ (i + 1) := by rw [Nat.shiftLeft_eq, pow_one, pow_succ]
    have hexp : i + (fuel + 1) = i + 1 + fuel := by omega
    rw [allOnesLoop, hshift]
    split
    · next hge =>
      have hand : num &&& 2 ^ i = 0 ↔ num.testBit i = false := by
        rw [Nat.and_two_pow]
        have hpos := Nat.two_pow_pos i
        cases num.testBit i <;> simp
      split
      · next hzero =>
        refine iff_of_false Bool.false_ne_true fun hall => ?_
        have hbit := hall i le_rfl hge
        rw [hand.mp hzero] at hbit
        cases hbit
      · next hone =>
        rw [ih (hexp ▸ hfuel)]
        refine ⟨fun hall j hj hle => ?_, fun hall j hj hle => hall j (by omega) hle⟩
        rcases Nat.lt_or_eq_of_le hj with hlt | rfl
        · exact hall j hlt hle
        · exact Bool.not_eq_false _ ▸ fun hbit => hone (hand.mpr hbit)
    · next hlt =>
      refine iff_of_true rfl fun j hj hle => ?_
      have hpow : 2 ^ i ≤ 2 ^ j := Nat.pow_le_pow_right (by decide) hj
      omega

/-- Numbers with ones only are one less than a power of two. -/
theorem allOnes_two_pow (h : ℕ) {num : ℕ} (hnum : num + 1 = 2 ^ (h + 1)) : allOnes num = true := by
  have hpow : 2 ^ (h + 1) = 2 * 2 ^ h := by ring
  have hpos := Nat.two_pow_pos h
  rw [allOnes, if_neg (by omega)]
  have hself : num + 1 < 2 ^ (num + 1) := Nat.lt_two_pow_self
  rw [show (1 : ℕ) = 2 ^ 0 from rfl, allOnesLoop_iff (by rw [zero_add]; exact lt_trans (Nat.lt_succ_self _) hself)]
  intro j _ hle
  have hnum' : num = 2 ^ (h + 1) - 1 := by omega
  have hlt : j < h + 1 := (Nat.pow_lt_pow_iff_right (by decide : 1 < 2)).mp (by omega)
  rw [hnum', Nat.testBit_two_pow_sub_one]
  exact decide_eq_true hlt

theorem allOnes_eq_false {m num : ℕ} (hge : 2 ^ m ≤ num) (hlt : num + 1 < 2 ^ (m + 1)) :
    allOnes num = false := by
  have hpos := Nat.two_pow_pos m
  rw [allOnes, if_neg (by omega), Bool.eq_false_iff, ne_eq]
  have hself : num + 1 < 2 ^ (num + 1) := Nat.lt_two_pow_self
  rw [show (1 : ℕ) = 2 ^ 0 from rfl, allOnesLoop_iff (by rw [zero_add]; exact lt_trans (Nat.lt_succ_self _) hself)]
  intro hall
  have heq : num = 2 ^ (m + 1) - 1 := by
    refine Nat.eq_of_testBit_eq fun j => ?_
    rw [Nat.testBit_two_pow_sub_one]
    by_cases hj : j < m + 1
    · rw [decide_eq_true hj]
      exact hall j (Nat.zero_le _) (le_trans (Nat.pow_le_pow_right (by decide) (by omega)) hge)
    · rw [decide_eq_false hj]
      exact Nat.testBit_lt_two_pow
        (lt_of_lt_of_le (by omega) (Nat.pow_le_pow_right (by decide) (not_lt.mp hj)))
  omega

/-- One step to the left drops the leading digit of the number of the node. -/
theorem bintreeJumpLeft_pos {m k : ℕ} (hk : k < 2 ^ m) (h : ℕ) :
    bintreeJumpLeft (pos (2 ^ m + k) h) = pos k h := by
  obtain ⟨hge, hlt⟩ := pos_bounds hk h
  have hstep := pos_two_pow_add hk h
  have hpos := Nat.two_pow_pos (h + 1 + m)
  rw [bintreeJumpLeft, mostSignificantPos_eq hge (by omega), Nat.add_sub_cancel, Nat.one_shiftLeft]
  omega

/-- The leftmost branch is reached with a step for each digit that is one. -/
theorem heightLoop_pos {k h fuel : ℕ} (hfuel : ones k < fuel) : heightLoop fuel (pos k h) = pos 0 h := by
  induction fuel generalizing k with
  | zero => exact absurd hfuel (Nat.not_lt_zero _)
  | succ fuel ih =>
    rw [heightLoop]
    rcases eq_zero_or_exists k with rfl | ⟨m, j, hj, rfl⟩
    · rw [allOnes_two_pow h (pos_zero h)]
      rfl
    · obtain ⟨hge, hlt⟩ := pos_bounds hj h
      rw [ones_two_pow_add hj] at hfuel
      rw [allOnes_eq_false hge hlt, bintreeJumpLeft_pos hj]
      exact ih (by omega)

/-- The height that is read off the digits is the one in the tree. -/
@[simp] theorem bintreePostorderHeight_pos (k h : ℕ) : bintreePostorderHeight (pos k h) = h := by
  have hadd := pos_add k h
  have hones := ones_le k
  have hpow : 2 * (k + 1) ≤ 2 ^ (h + 1) * (k + 1) :=
    Nat.mul_le_mul_right _ (Nat.le_self_pow (Nat.succ_ne_zero h) 2)
  have hzero := pos_zero h
  have hdouble : 2 ^ (h + 1) = 2 * 2 ^ h := by ring
  have hpos := Nat.two_pow_pos h
  rw [bintreePostorderHeight, heightLoop_pos (by omega), mostSignificantPos_eq (m := h) (by omega) (by omega)]
  rfl

/-! ## Relatives -/

theorem one_shiftLeft_height (k h : ℕ) : 1 <<< (bintreePostorderHeight (pos k h) + 1) = size h + 1 := by
  have hpos := Nat.two_pow_pos (h + 1)
  rw [bintreePostorderHeight_pos, Nat.one_shiftLeft, size]
  omega

@[simp] theorem bintreeJumpLeftSibling_pos (k h : ℕ) :
    bintreeJumpLeftSibling (pos (2 * k + 1) h) = pos (2 * k) h := by
  have hright := pos_two_mul_add_one k h
  have hleft := pos_left k h
  rw [bintreeJumpLeftSibling, one_shiftLeft_height]
  omega

@[simp] theorem bintreeJumpRightSibling_pos (k h : ℕ) :
    bintreeJumpRightSibling (pos (2 * k) h) = pos (2 * k + 1) h := by
  have hright := pos_two_mul_add_one k h
  have hleft := pos_left k h
  rw [bintreeJumpRightSibling, one_shiftLeft_height]
  omega

theorem bintreeMoveDownLeft_leaf (k : ℕ) : bintreeMoveDownLeft (pos k 0) = none := by
  rw [bintreeMoveDownLeft, bintreePostorderHeight_pos]
  rfl

@[simp] theorem bintreeMoveDownLeft_pos (k h : ℕ) :
    bintreeMoveDownLeft (pos k (h + 1)) = some (pos (2 * k) h) := by
  have hleft := pos_two_mul k h
  simp only [bintreeMoveDownLeft, bintreePostorderHeight_pos, Nat.one_shiftLeft]
  rw [if_neg (Nat.succ_ne_zero h)]
  congr 1
  omega

/-- Only behind a right child the height goes up. -/
theorem height_succ_of_right (k h : ℕ) : bintreePostorderHeight (pos (2 * k + 1) h + 1) = h + 1 := by
  rw [pos_two_mul_add_one, bintreePostorderHeight_pos]

theorem height_succ_of_left (k h : ℕ) : bintreePostorderHeight (pos (2 * k) h + 1) = 0 := by
  rw [pos_leaf_of_even, bintreePostorderHeight_pos]

theorem family_right (k h : ℕ) : family (pos (2 * k + 1) h) = (pos k (h + 1), pos (2 * k) h) := by
  simp only [family, height_succ_of_right, bintreePostorderHeight_pos]
  rw [if_pos (Nat.lt_succ_self h), bintreeJumpLeftSibling_pos, pos_two_mul_add_one]

theorem family_left (k h : ℕ) : family (pos (2 * k) h) = (pos k (h + 1), pos (2 * k + 1) h) := by
  simp only [family, height_succ_of_left, bintreePostorderHeight_pos]
  rw [if_neg (Nat.not_lt_zero h), bintreeJumpRightSibling_pos, pos_two_mul_add_one]

/-- Parent and sibling of a node. -/
theorem family_pos (k h : ℕ) : family (pos k h) = (pos (k / 2) (h + 1), pos (k ^^^ 1) h) := by
  rcases Nat.even_or_odd' k with ⟨j, rfl | rfl⟩
  · have hdiv : 2 * j / 2 = j := by omega
    rw [family_left, hdiv, Nat.xor_one_of_even (even_two_mul j)]
  · have hdiv : (2 * j + 1) / 2 = j := by omega
    rw [family_right, hdiv, Nat.xor_one_of_odd (odd_two_mul_add_one j)]
    rfl

/-! ## The peaks -/

/-- Down to the left from a node that is not there the next tree is found. -/
theorem downLoop_pos {n i fuel : ℕ} (hfuel : i < fuel) :
    downLoop (nodes n) fuel (pos (n / 2 ^ i) i) = (peaksBelow n i).head?.map fun (k, h) => pos k h := by
  induction i generalizing fuel with
  | zero =>
    obtain ⟨fuel, rfl⟩ := Nat.exists_eq_succ_of_ne_zero (Nat.ne_of_gt hfuel)
    have hgt : pos (n / 2 ^ 0) 0 > nodes n := by
      rw [pow_zero, Nat.div_one, pos_leaf]
      exact Nat.lt_succ_self _
    rw [downLoop, if_pos hgt, bintreeMoveDownLeft_leaf]
    rfl
  | succ i ih =>
    obtain ⟨fuel, rfl⟩ := Nat.exists_eq_succ_of_ne_zero (Nat.ne_of_gt (lt_of_le_of_lt (Nat.zero_le _) hfuel))
    have hgt : pos (n / 2 ^ (i + 1)) (i + 1) > nodes n := by
      rw [gt_iff_lt, ← not_le, pos_le_nodes_iff, not_le]
      exact Nat.lt_mul_of_div_lt (Nat.lt_succ_self _) (Nat.two_pow_pos _)
    rw [downLoop, if_pos hgt, bintreeMoveDownLeft_pos, peaksBelow]
    simp only
    split
    · next hbit =>
      have hdiv := div_of_testBit hbit
      have hpeak : n / 2 ^ i - 1 = 2 * (n / 2 ^ (i + 1)) := by omega
      have hthere : ¬ pos (2 * (n / 2 ^ (i + 1))) i > nodes n := by
        rw [not_lt, pos_le_nodes_iff, ← hdiv]
        exact Nat.div_mul_le_self n (2 ^ i)
      obtain ⟨fuel, rfl⟩ := Nat.exists_eq_succ_of_ne_zero (show fuel ≠ 0 by omega)
      rw [downLoop, if_neg hthere, List.head?_cons, Option.map_some, hpeak]
    · next hbit =>
      rw [← div_of_not_testBit hbit]
      exact ih (by omega)

theorem lt_nodes_of_testBit {n i : ℕ} (h : n.testBit i = true) : i < nodes n + 1 := by
  have hle := Nat.ge_two_pow_of_testBit h
  have hlt : i < 2 ^ i := Nat.lt_two_pow_self
  have hones := ones_le n
  simp only [nodes]
  omega

/-- The trees behind a tree. -/
theorem peaksLoop_pos {n i fuel : ℕ} (hbit : n.testBit i = true) (hfuel : i < fuel) :
    peaksLoop (nodes n) fuel (pos (n / 2 ^ i - 1) i) = (peaksBelow n i).map fun (k, h) => pos k h := by
  induction i using Nat.strong_induction_on generalizing fuel with
  | _ i ih =>
    obtain ⟨fuel, rfl⟩ := Nat.exists_eq_succ_of_ne_zero (Nat.ne_of_gt (lt_of_le_of_lt (Nat.zero_le _) hfuel))
    have hdiv := div_of_testBit hbit
    have hpeak : n / 2 ^ i - 1 = 2 * (n / 2 ^ (i + 1)) := by omega
    rw [peaksLoop, hpeak, bintreeJumpRightSibling_pos, ← hdiv, downLoop_pos (lt_nodes_of_testBit hbit)]
    rcases peaksBelow_cases n i with hnil | ⟨h, hlt, hbit', hcons⟩
    · rw [hnil]
      rfl
    · rw [hcons]
      simp only [List.head?_cons, Option.map_some, List.map_cons]
      rw [ih h hlt hbit' (by omega)]

/-- The loop for the top ends at the first power of two that is too large. -/
theorem topLoop_eq {num l fuel i : ℕ} (hlow : 2 ^ l - 1 ≤ num) (hhigh : num < 2 ^ (l + 1) - 1) (hi : i ≤ l + 1)
    (hfuel : l + 1 - i < fuel) : topLoop num fuel (2 ^ i) = 2 ^ (l + 1) := by
  induction fuel generalizing i with
  | zero => exact absurd hfuel (Nat.not_lt_zero _)
  | succ fuel ih =>
    rw [topLoop]
    rcases Nat.lt_or_eq_of_le hi with h | rfl
    · have hpow : 2 ^ i ≤ 2 ^ l := Nat.pow_le_pow_right (by decide) (by omega)
      have hshift : 2 ^ i <<< 1 = 2 ^ (i + 1) := by rw [Nat.shiftLeft_eq, pow_one, pow_succ]
      rw [if_pos (by omega), hshift]
      exact ih (by omega) (by omega)
    · rw [if_neg (by omega)]

/-- The peaks are the trees of the binary digits of the number of leaves. -/
theorem peaks_nodes {n : ℕ} (hn : n ≠ 0) : peaks (nodes n) = (peakNodes n).map fun (k, h) => pos k h := by
  have hlow : 2 ^ n.log2 ≤ n := Nat.log2_self_le hn
  have hhigh : n < 2 ^ (n.log2 + 1) := Nat.lt_log2_self
  have hpow : 2 ^ (n.log2 + 1) = 2 * 2 ^ n.log2 := by ring
  have hbit : n.testBit n.log2 = true := Nat.testBit_of_two_pow_le_and_two_pow_add_one_gt hlow hhigh
  have hdiv : n / 2 ^ n.log2 = 1 := Nat.div_eq_of_lt_le (by omega) (by omega)
  have htop : 2 ^ (n.log2 + 1) - 1 ≤ nodes n := by
    have hle : pos 0 n.log2 ≤ nodes n := pos_le_nodes_iff.mpr (by omega)
    have hzero := pos_zero n.log2
    omega
  have hnext : nodes n < 2 ^ (n.log2 + 1 + 1) - 1 := by
    have hlt : ¬ pos 0 (n.log2 + 1) ≤ nodes n := fun h => by
      have := pos_le_nodes_iff.mp h
      omega
    have hzero := pos_zero (n.log2 + 1)
    omega
  have hself : n.log2 < 2 ^ n.log2 := Nat.lt_two_pow_self
  have hfuel : n.log2 < nodes n + 1 := lt_nodes_of_testBit hbit
  have hloop : topLoop (nodes n) (nodes n + 2) 1 = 2 ^ (n.log2 + 1 + 1) :=
    topLoop_eq (i := 0) htop hnext (Nat.zero_le _) (by omega)
  have hhalf : (2 ^ (n.log2 + 1 + 1) >>> 1) - 1 = pos 0 n.log2 := by
    have hzero := pos_zero n.log2
    rw [Nat.shiftRight_eq_div_pow, pow_one, pow_succ, Nat.mul_div_cancel _ (by decide : 0 < 2)]
    omega
  have hleaf : bintreePostorderHeight (nodes n + 1) = 0 := by rw [← pos_leaf, bintreePostorderHeight_pos]
  have hfirst : pos 0 n.log2 = pos (n / 2 ^ n.log2 - 1) n.log2 := by rw [hdiv]
  rw [peaks, hleaf, if_neg (Nat.not_lt_zero _)]
  simp only
  rw [hloop, hhalf, if_neg (pos_pos 0 _).ne', peakNodes, peaksBelow, if_pos hbit, List.map_cons, hfirst,
    peaksLoop_pos hbit hfuel]

end Pmmr

end GrinDotnet
