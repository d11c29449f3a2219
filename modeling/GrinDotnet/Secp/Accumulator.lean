import Mathlib.Tactic.Ring
import Mathlib.Data.Nat.Basic

/-!
# Words with carries

The macros `muladd`, `sumadd` and `extract` of the scalars: a number in three words to which products of
words are added, and from which the lowest word is taken. The words wrap around, and a carry is seen in
a sum that is less than what was added. The highest word is of 32 bits in the product and of 64 in the
reduction.

Results:
1. `val_muladd`, `val_sumadd`: the macros add, modulo what the words can hold.
2. `val_muladdFast`, `val_sumaddFast`: the short ones add where two words are enough.
3. `val_extract`: the lowest word and the rest make the number.
-/

namespace GrinDotnet

/-- The sum wraps around exactly when it is less than what was added. -/
theorem toNat_add_carry (x y : UInt64) :
    (x + y).toNat + 2 ^ 64 * (if x + y < y then 1 else 0) = x.toNat + y.toNat := by
  have hx := x.toNat_lt
  have hy := y.toNat_lt
  have hsum : (x + y).toNat = (x.toNat + y.toNat) % 2 ^ 64 := UInt64.toNat_add x y
  have hiff : x + y < y ↔ (x + y).toNat < y.toNat := UInt64.lt_iff_toNat_lt
  simp only [hiff]
  split <;> omega

theorem mul_le_words (a b : UInt64) : a.toNat * b.toNat ≤ (2 ^ 64 - 1) * (2 ^ 64 - 1) :=
  Nat.mul_le_mul (Nat.le_sub_one_of_lt a.toNat_lt) (Nat.le_sub_one_of_lt b.toNat_lt)

/-- What is above a multiple of `B` stays when the multiples are counted modulo `m`. -/
theorem add_mul_mod_mul {lo B : ℕ} (h : lo < B) (k m : ℕ) : (lo + B * k) % (B * m) = lo + B * (k % m) := by
  rw [Nat.mod_mul, Nat.add_mul_mod_self_left, Nat.mod_eq_of_lt h, Nat.add_mul_div_left _ _ (by omega),
    Nat.div_eq_of_lt h, Nat.zero_add]

/-- The number `(c0,c1,c2)`, whose highest word has `w` bits. -/
structure Acc (w : ℕ) where
  c0 : UInt64
  c1 : UInt64
  c2 : BitVec w
deriving DecidableEq

namespace Acc

variable {w : ℕ}

/-- The number in the words. -/
def val (acc : Acc w) : ℕ := acc.c0.toNat + 2 ^ 64 * acc.c1.toNat + 2 ^ 128 * acc.c2.toNat

/-- The high word of a product, with the carry of its low word. -/
def highCarry (acc : Acc w) (a b : UInt64) : UInt64 :=
  let t := a.toNat * b.toNat
  let th := UInt64.ofNat (t / 2 ^ 64)
  let tl := UInt64.ofNat t
  th + if acc.c0 + tl < tl then 1 else 0

/-- `muladd`. -/
def muladd (acc : Acc w) (a b : UInt64) : Acc w :=
  let tl := UInt64.ofNat (a.toNat * b.toNat)
  let th := acc.highCarry a b
  let c1 := acc.c1 + th
  { c0 := acc.c0 + tl
    c1
    c2 := acc.c2 + if c1 < th then 1 else 0 }

/-- `muladd_fast`. -/
def muladdFast (acc : Acc w) (a b : UInt64) : Acc w :=
  { acc with c0 := acc.c0 + UInt64.ofNat (a.toNat * b.toNat), c1 := acc.c1 + acc.highCarry a b }

/-- `sumadd`. -/
def sumadd (acc : Acc w) (a : UInt64) : Acc w :=
  let c0 := acc.c0 + a
  let overflow := if c0 < a then 1 else 0
  let c1 := acc.c1 + overflow
  { c0, c1, c2 := acc.c2 + if c1 < overflow then 1 else 0 }

/-- `sumadd_fast`. -/
def sumaddFast (acc : Acc w) (a : UInt64) : Acc w :=
  let c0 := acc.c0 + a
  { acc with c0, c1 := acc.c1 + if c0 < a then 1 else 0 }

/-- `extract`, behind the lowest word. -/
def extract (acc : Acc w) : Acc w := { c0 := acc.c1, c1 := UInt64.ofNat acc.c2.toNat, c2 := 0 }

/-- `extract_fast`, behind the lowest word. -/
def extractFast (acc : Acc w) : Acc w := { acc with c0 := acc.c1, c1 := 0 }

/-! ## The number -/

@[simp]
theorem val_word (a : UInt64) : (Acc.mk a 0 0 : Acc w).val = a.toNat := by
  simp [val]

theorem c2_eq_zero {acc : Acc w} (h : acc.val < 2 ^ 128) : acc.c2.toNat = 0 := by
  unfold val at h
  omega

/-- The two low words are below `2 ^ 128`, and a carry out of them is counted in the highest word. -/
theorem val_carry (c0 c1 : UInt64) (c2 : BitVec w) (p : Prop) [Decidable p] :
    (Acc.mk c0 c1 (c2 + if p then 1 else 0)).val =
      (c0.toNat + 2 ^ 64 * c1.toNat + 2 ^ 128 * (c2.toNat + if p then 1 else 0)) % (2 ^ 128 * 2 ^ w) := by
  have h0 := c0.toNat_lt
  have h1 := c1.toNat_lt
  rw [add_mul_mod_mul (by omega), val, BitVec.toNat_add]
  split <;> simp

/-- A number of one word is in the lowest word. -/
theorem toNat_c0 (acc : Acc w) (h : acc.val < 2 ^ 64) : acc.c0.toNat = acc.val := by
  unfold val at h ⊢
  omega

/-- The high word with its carry does not wrap around. -/
theorem highCarry_spec (acc : Acc w) (a b : UInt64) :
    (acc.c0 + UInt64.ofNat (a.toNat * b.toNat)).toNat + 2 ^ 64 * (acc.highCarry a b).toNat =
      acc.c0.toNat + a.toNat * b.toNat := by
  have hproduct := mul_le_words a b
  have hcarry := toNat_add_carry acc.c0 (UInt64.ofNat (a.toNat * b.toNat))
  have hlow : (UInt64.ofNat (a.toNat * b.toNat)).toNat = a.toNat * b.toNat % 2 ^ 64 := UInt64.toNat_ofNat'
  have hhigh : (UInt64.ofNat (a.toNat * b.toNat / 2 ^ 64)).toNat = a.toNat * b.toNat / 2 ^ 64 % 2 ^ 64 :=
    UInt64.toNat_ofNat'
  rw [highCarry]
  generalize a.toNat * b.toNat = t at *
  split at hcarry
  · next hlt =>
    rw [if_pos hlt, UInt64.toNat_add (UInt64.ofNat _) 1, hhigh, UInt64.toNat_one]
    omega
  · next hge =>
    rw [if_neg hge, UInt64.add_zero, hhigh]
    omega

/-- A product is added. -/
theorem val_muladd (acc : Acc w) (a b : UInt64) :
    (acc.muladd a b).val = (acc.val + a.toNat * b.toNat) % (2 ^ 128 * 2 ^ w) := by
  have hlow := acc.highCarry_spec a b
  have hhigh := toNat_add_carry acc.c1 (acc.highCarry a b)
  rw [muladd, val_carry]
  congr 1
  rw [val]
  omega

/-- A product is added, when the sum is below two words. -/
theorem val_muladdFast (acc : Acc w) (a b : UInt64) (h : acc.val + a.toNat * b.toNat < 2 ^ 128) :
    (acc.muladdFast a b).val = acc.val + a.toNat * b.toNat := by
  have hlow := acc.highCarry_spec a b
  have hhigh := toNat_add_carry acc.c1 (acc.highCarry a b)
  simp only [val, muladdFast] at h ⊢
  split at hhigh <;> omega

/-- A word is added. -/
theorem val_sumadd (acc : Acc w) (a : UInt64) :
    (acc.sumadd a).val = (acc.val + a.toNat) % (2 ^ 128 * 2 ^ w) := by
  have hlow := toNat_add_carry acc.c0 a
  have hhigh := toNat_add_carry acc.c1 (if acc.c0 + a < a then 1 else 0)
  rw [sumadd, val_carry]
  congr 1
  rw [val]
  split at hlow
  · next hlt =>
    simp only [hlt, if_true, UInt64.toNat_one] at hhigh ⊢
    omega
  · next hge =>
    simp only [hge, if_false, UInt64.toNat_zero] at hhigh ⊢
    omega

/-- A word is added, when the sum is below two words. -/
theorem val_sumaddFast (acc : Acc w) (a : UInt64) (h : acc.val + a.toNat < 2 ^ 128) :
    (acc.sumaddFast a).val = acc.val + a.toNat := by
  have hlow := toNat_add_carry acc.c0 a
  have hhigh := toNat_add_carry acc.c1 (if acc.c0 + a < a then 1 else 0)
  simp only [val, sumaddFast] at h ⊢
  split at hlow
  · next hlt =>
    simp only [hlt, if_true, UInt64.toNat_one] at hhigh ⊢
    split at hhigh <;> omega
  · next hge =>
    simp only [hge, if_false, UInt64.toNat_zero] at hhigh ⊢
    split at hhigh <;> omega

/-- The lowest word and the rest make the number, since the highest word fits into the one below it. -/
theorem val_extract (acc : Acc w) (hw : w ≤ 64) :
    acc.c0.toNat + 2 ^ 64 * acc.extract.val = acc.val := by
  have hc2 : acc.c2.toNat < 2 ^ 64 := lt_of_lt_of_le acc.c2.isLt (Nat.pow_le_pow_right (by decide) hw)
  have hword : (UInt64.ofNat acc.c2.toNat).toNat = acc.c2.toNat := by
    rw [UInt64.toNat_ofNat']
    exact Nat.mod_eq_of_lt hc2
  have hzero : (0 : BitVec w).toNat = 0 := by simp
  simp only [val, extract, hword, hzero]
  omega

theorem val_extractFast (acc : Acc w) (h : acc.val < 2 ^ 128) :
    acc.c0.toNat + 2 ^ 64 * acc.extractFast.val = acc.val := by
  have hc2 := c2_eq_zero h
  simp only [val, extractFast, hc2, UInt64.toNat_zero]
  omega

end Acc

end GrinDotnet
