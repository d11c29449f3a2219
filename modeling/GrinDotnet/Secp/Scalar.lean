import GrinDotnet.Secp.Accumulator
import GrinDotnet.Secp.Der
import GrinDotnet.Secp.Ecdsa

/-!
# Scalars in four words

The representation below the scalars: `secp256k1_scalar` with four words, its sums with carries, and the
product, which is reduced with what the order leaves of a power of two. Sums of two words and a carry fit
into 128 bits and are numbers here.

Results:
1. `checkOverflow_iff`, `isHigh_iff`: the comparisons word by word are those of the numbers.
2. `reduce_carry`: the final reduction, which all operations end in.
3. `val_mul512`, `val_reduce512`: the product, and its residue.
4. `scalar_refines`: the operations are those of the residues.
-/

namespace GrinDotnet

open BigEndian

/-- `secp256k1_scalar`, with the lowest word first. -/
structure Scalar where
  d0 : UInt64
  d1 : UInt64
  d2 : UInt64
  d3 : UInt64
deriving DecidableEq

namespace Scalar

/-! ## Constants -/

/-- The words of the order. -/
def order : Scalar := ⟨0xBFD25E8CD0364141, 0xBAAEDCE6AF48A03B, 0xFFFFFFFFFFFFFFFE, 0xFFFFFFFFFFFFFFFF⟩

/-- `SECP256K1_N_C_0`. -/
def nC0 : UInt64 := ~~~order.d0 + 1

/-- `SECP256K1_N_C_1`. -/
def nC1 : UInt64 := ~~~order.d1

/-- `SECP256K1_N_C_2`. -/
def nC2 : UInt64 := 1

/-- The words of half the order. -/
def half : Scalar := ⟨0xDFE92F46681B20A0, 0x5D576E7357A4501D, 0xFFFFFFFFFFFFFFFF, 0x7FFFFFFFFFFFFFFF⟩

/-- The number in the words. -/
def val (a : Scalar) : ℕ :=
  a.d0.toNat + 2 ^ 64 * a.d1.toNat + 2 ^ 128 * a.d2.toNat + 2 ^ 192 * a.d3.toNat

/-! ## Operations -/

/-- `secp256k1_scalar_check_overflow`. -/
def checkOverflow (a : Scalar) : Bool :=
  let no := decide (a.d3 < order.d3)
  let no := no || decide (a.d2 < order.d2)
  let yes := decide (a.d2 > order.d2) && !no
  let no := no || decide (a.d1 < order.d1)
  let yes := yes || (decide (a.d1 > order.d1) && !no)
  yes || (decide (a.d0 ≥ order.d0) && !no)

/-- `secp256k1_scalar_reduce`. -/
def reduce (r : Scalar) (overflow : ℕ) : Scalar :=
  let t := r.d0.toNat + (UInt64.ofNat overflow * nC0).toNat
  let d0 := UInt64.ofNat t
  let t := t / 2 ^ 64 + (r.d1.toNat + (UInt64.ofNat overflow * nC1).toNat)
  let d1 := UInt64.ofNat t
  let t := t / 2 ^ 64 + (r.d2.toNat + (UInt64.ofNat overflow * nC2).toNat)
  let d2 := UInt64.ofNat t
  let t := t / 2 ^ 64 + r.d3.toNat
  let d3 := UInt64.ofNat t
  { d0, d1, d2, d3 }

/-- `secp256k1_scalar_add`: the sum, and whether it was reduced. -/
def add (a b : Scalar) : Scalar × ℕ :=
  let t := a.d0.toNat + b.d0.toNat
  let d0 := UInt64.ofNat t
  let t := t / 2 ^ 64 + (a.d1.toNat + b.d1.toNat)
  let d1 := UInt64.ofNat t
  let t := t / 2 ^ 64 + (a.d2.toNat + b.d2.toNat)
  let d2 := UInt64.ofNat t
  let t := t / 2 ^ 64 + (a.d3.toNat + b.d3.toNat)
  let d3 := UInt64.ofNat t
  let r : Scalar := { d0, d1, d2, d3 }
  let overflow := t / 2 ^ 64 + r.checkOverflow.toNat
  (r.reduce overflow, overflow)

/-- A word of eight bytes, the highest one first. -/
def word (b : Bytes) : UInt64 := b.foldl (fun acc x => acc <<< 8 ||| x.toUInt64) 0

/-- `secp256k1_scalar_set_b32`. -/
def setB32 (b32 : Bytes) : Scalar × Bool :=
  let r : Scalar := {
    d0 := word ((b32.drop 24).take 8)
    d1 := word ((b32.drop 16).take 8)
    d2 := word ((b32.drop 8).take 8)
    d3 := word (b32.take 8) }
  (r.reduce r.checkOverflow.toNat, r.checkOverflow)

/-- The bytes of a word, the highest one first. -/
def wordBytes (d : UInt64) : Bytes :=
  (List.range 8).map fun i => (d >>> UInt64.ofNat (56 - 8 * i)).toUInt8

/-- `secp256k1_scalar_get_b32`. -/
def getB32 (a : Scalar) : Bytes := wordBytes a.d3 ++ wordBytes a.d2 ++ wordBytes a.d1 ++ wordBytes a.d0

/-- `secp256k1_scalar_is_zero`. -/
def isZero (a : Scalar) : Bool := decide (a.d0 ||| a.d1 ||| a.d2 ||| a.d3 = 0)

/-- `secp256k1_scalar_negate`. -/
def negate (a : Scalar) : Scalar :=
  let nonzero : UInt64 := 0xFFFFFFFFFFFFFFFF * if a.isZero then 0 else 1
  let t := (~~~a.d0).toNat + order.d0.toNat + 1
  let d0 := UInt64.ofNat t &&& nonzero
  let t := t / 2 ^ 64 + ((~~~a.d1).toNat + order.d1.toNat)
  let d1 := UInt64.ofNat t &&& nonzero
  let t := t / 2 ^ 64 + ((~~~a.d2).toNat + order.d2.toNat)
  let d2 := UInt64.ofNat t &&& nonzero
  let t := t / 2 ^ 64 + ((~~~a.d3).toNat + order.d3.toNat)
  let d3 := UInt64.ofNat t &&& nonzero
  { d0, d1, d2, d3 }

/-- `secp256k1_scalar_is_high`. -/
def isHigh (a : Scalar) : Bool :=
  let no := decide (a.d3 < half.d3)
  let yes := decide (a.d3 > half.d3) && !no
  let no := no || (decide (a.d2 < half.d2) && !yes)
  let no := no || (decide (a.d1 < half.d1) && !yes)
  let yes := yes || (decide (a.d1 > half.d1) && !no)
  yes || (decide (a.d0 > half.d0) && !no)

/-- The eight words of a product. -/
structure Wide where
  l0 : UInt64
  l1 : UInt64
  l2 : UInt64
  l3 : UInt64
  l4 : UInt64
  l5 : UInt64
  l6 : UInt64
  l7 : UInt64

/-- The number in the words. -/
def Wide.val (l : Wide) : ℕ :=
  l.l0.toNat + 2 ^ 64 * l.l1.toNat + 2 ^ 128 * l.l2.toNat + 2 ^ 192 * l.l3.toNat +
    2 ^ 256 * (l.l4.toNat + 2 ^ 64 * l.l5.toNat + 2 ^ 128 * l.l6.toNat + 2 ^ 192 * l.l7.toNat)

/-- The number in the four high words. -/
def Wide.high (l : Wide) : ℕ :=
  l.l4.toNat + 2 ^ 64 * l.l5.toNat + 2 ^ 128 * l.l6.toNat + 2 ^ 192 * l.l7.toNat

/-- `secp256k1_scalar_mul_512`. -/
def mul512 (a b : Scalar) : Wide :=
  let c : Acc 32 := ⟨0, 0, 0⟩
  let c := c.muladdFast a.d0 b.d0
  let l0 := c.c0
  let c := ((c.extractFast).muladd a.d0 b.d1).muladd a.d1 b.d0
  let l1 := c.c0
  let c := (((c.extract).muladd a.d0 b.d2).muladd a.d1 b.d1).muladd a.d2 b.d0
  let l2 := c.c0
  let c := ((((c.extract).muladd a.d0 b.d3).muladd a.d1 b.d2).muladd a.d2 b.d1).muladd a.d3 b.d0
  let l3 := c.c0
  let c := (((c.extract).muladd a.d1 b.d3).muladd a.d2 b.d2).muladd a.d3 b.d1
  let l4 := c.c0
  let c := ((c.extract).muladd a.d2 b.d3).muladd a.d3 b.d2
  let l5 := c.c0
  let c := (c.extract).muladdFast a.d3 b.d3
  let l6 := c.c0
  let c := c.extractFast
  { l0, l1, l2, l3, l4, l5, l6, l7 := c.c0 }

/-- The first part of `secp256k1_scalar_reduce_512`: 385 bits, in seven words. -/
def reduce385 (l : Wide) : Wide :=
  let c : Acc 64 := ⟨l.l0, 0, 0⟩
  let c := c.muladdFast l.l4 nC0
  let m0 := c.c0
  let c := (((c.extractFast).sumaddFast l.l1).muladd l.l5 nC0).muladd l.l4 nC1
  let m1 := c.c0
  let c := ((((c.extract).sumadd l.l2).muladd l.l6 nC0).muladd l.l5 nC1).sumadd l.l4
  let m2 := c.c0
  let c := ((((c.extract).sumadd l.l3).muladd l.l7 nC0).muladd l.l6 nC1).sumadd l.l5
  let m3 := c.c0
  let c := ((c.extract).muladd l.l7 nC1).sumadd l.l6
  let m4 := c.c0
  let c := (c.extract).sumaddFast l.l7
  let m5 := c.c0
  let c := c.extractFast
  -- the last word is 32 bits
  { l0 := m0, l1 := m1, l2 := m2, l3 := m3, l4 := m4, l5 := m5, l6 := c.c0.toUInt32.toUInt64, l7 := 0 }

/-- The second part: 258 bits, in four words and `p4`. -/
def reduce258 (m : Wide) : Scalar × ℕ :=
  let c : Acc 64 := ⟨m.l0, 0, 0⟩
  let c := c.muladdFast m.l4 nC0
  let p0 := c.c0
  let c := (((c.extractFast).sumaddFast m.l1).muladd m.l5 nC0).muladd m.l4 nC1
  let p1 := c.c0
  let c := ((((c.extract).sumadd m.l2).muladd m.l6 nC0).muladd m.l5 nC1).sumadd m.l4
  let p2 := c.c0
  let c := (((c.extract).sumaddFast m.l3).muladdFast m.l6 nC1).sumaddFast m.l5
  let p3 := c.c0
  let c := c.extractFast
  (⟨p0, p1, p2, p3⟩, (c.c0 + m.l6).toUInt32.toNat)

/-- The third part: 256 bits, and the carry. -/
def reduce256 (p : Scalar) (p4 : ℕ) : Scalar × ℕ :=
  let c := p.d0.toNat + nC0.toNat * p4
  let d0 := UInt64.ofNat c
  let c := c / 2 ^ 64 + (p.d1.toNat + nC1.toNat * p4)
  let d1 := UInt64.ofNat c
  let c := c / 2 ^ 64 + (p.d2.toNat + p4)
  let d2 := UInt64.ofNat c
  let c := c / 2 ^ 64 + p.d3.toNat
  let d3 := UInt64.ofNat c
  (⟨d0, d1, d2, d3⟩, c / 2 ^ 64)

/-- `secp256k1_scalar_reduce_512`. -/
def reduce512 (l : Wide) : Scalar :=
  let (p, p4) := reduce258 (reduce385 l)
  let (r, c) := reduce256 p p4
  r.reduce (c + r.checkOverflow.toNat)

/-- `secp256k1_scalar_mul`. -/
def mul (a b : Scalar) : Scalar := reduce512 (mul512 a b)

/-! ## Comparing -/

theorem val_lt (a : Scalar) : a.val < 2 ^ 256 := by
  have h0 := a.d0.toNat_lt
  have h1 := a.d1.toNat_lt
  have h2 := a.d2.toNat_lt
  have h3 := a.d3.toNat_lt
  unfold val
  omega

/-- The comparison word by word is the one of the numbers. -/
theorem checkOverflow_iff (a : Scalar) : a.checkOverflow = true ↔ Der.secpOrder ≤ a.val := by
  have h0 := a.d0.toNat_lt
  have h1 := a.d1.toNat_lt
  have h2 := a.d2.toNat_lt
  have h3 := a.d3.toNat_lt
  have n0 : order.d0.toNat = 0xBFD25E8CD0364141 := rfl
  have n1 : order.d1.toNat = 0xBAAEDCE6AF48A03B := rfl
  have n2 : order.d2.toNat = 0xFFFFFFFFFFFFFFFE := rfl
  have n3 : order.d3.toNat = 0xFFFFFFFFFFFFFFFF := rfl
  simp only [checkOverflow, Bool.or_eq_true, Bool.and_eq_true, decide_eq_true_eq, Bool.not_eq_true',
    Bool.or_eq_false_iff, decide_eq_false_iff_not, gt_iff_lt, ge_iff_le, UInt64.lt_iff_toNat_lt,
    UInt64.le_iff_toNat_le, n0, n1, n2, n3, val, Der.secpOrder]
  omega

theorem isHigh_iff (a : Scalar) : a.isHigh = true ↔ Der.secpOrder / 2 < a.val := by
  have h0 := a.d0.toNat_lt
  have h1 := a.d1.toNat_lt
  have h2 := a.d2.toNat_lt
  have h3 := a.d3.toNat_lt
  have n0 : half.d0.toNat = 0xDFE92F46681B20A0 := rfl
  have n1 : half.d1.toNat = 0x5D576E7357A4501D := rfl
  have n2 : half.d2.toNat = 0xFFFFFFFFFFFFFFFF := rfl
  have n3 : half.d3.toNat = 0x7FFFFFFFFFFFFFFF := rfl
  simp only [isHigh, Bool.or_eq_true, Bool.and_eq_true, decide_eq_true_eq, Bool.not_eq_true',
    Bool.or_eq_false_iff, Bool.and_eq_false_iff, Bool.not_eq_false', decide_eq_false_iff_not, gt_iff_lt,
    UInt64.lt_iff_toNat_lt, n0, n1, n2, n3, val, Der.secpOrder]
  omega

theorem isZero_iff (a : Scalar) : a.isZero = true ↔ a.val = 0 := by
  simp only [isZero, decide_eq_true_eq, UInt64.or_eq_zero_iff]
  simp only [← UInt64.toNat_inj, UInt64.toNat_zero, val]
  omega

/-! ## Sums -/

theorem toNat_nC : nC0.toNat = 0x402DA1732FC9BEBF ∧ nC1.toNat = 0x4551231950B75FC4 ∧ nC2.toNat = 1 :=
  ⟨rfl, rfl, rfl⟩

/-- Reducing adds what the order leaves of the power of two. -/
theorem val_reduce (r : Scalar) {overflow : ℕ} (h : overflow ≤ 1) :
    (r.reduce overflow).val = (r.val + overflow * (2 ^ 256 - Der.secpOrder)) % 2 ^ 256 := by
  obtain ⟨n0, n1, n2⟩ := toNat_nC
  have h0 := r.d0.toNat_lt
  have h1 := r.d1.toNat_lt
  have h2 := r.d2.toNat_lt
  have h3 := r.d3.toNat_lt
  rcases Nat.le_one_iff_eq_zero_or_eq_one.mp h with rfl | rfl
  · simp only [reduce, val, UInt64.toNat_ofNat']
    simp
    omega
  · simp only [reduce, val, UInt64.toNat_ofNat', UInt64.ofNat_one, UInt64.one_mul, n0, n1, n2,
      Der.secpOrder]
    omega

/-- The final reduction, when the number is below twice the order. -/
theorem reduce_carry (r : Scalar) (c : ℕ) (h : r.val + 2 ^ 256 * c < 2 * Der.secpOrder) :
    (r.reduce (c + r.checkOverflow.toNat)).val < Der.secpOrder ∧
      ∃ k, (r.reduce (c + r.checkOverflow.toNat)).val + k * Der.secpOrder = r.val + 2 ^ 256 * c := by
  have hr := r.val_lt
  have hover := checkOverflow_iff r
  simp only [Der.secpOrder] at h
  cases hflag : r.checkOverflow with
  | true =>
    have hge : Der.secpOrder ≤ r.val := hover.mp hflag
    simp only [Der.secpOrder] at hge
    have hc : c = 0 := by omega
    rw [hc, Bool.toNat_true, zero_add, val_reduce r (le_refl 1)]
    simp only [Der.secpOrder]
    exact ⟨by omega, 1, by omega⟩
  | false =>
    have hlt : r.val < Der.secpOrder := by
      by_contra hge
      rw [hover.mpr (not_lt.mp hge)] at hflag
      cases hflag
    have hc : c ≤ 1 := by omega
    rw [Bool.toNat_false, add_zero, val_reduce r hc]
    simp only [Der.secpOrder] at hlt ⊢
    rcases Nat.le_one_iff_eq_zero_or_eq_one.mp hc with rfl | rfl
    · exact ⟨by omega, 0, by omega⟩
    · exact ⟨by omega, 1, by omega⟩

/-- Adding and reducing at most once is adding the residues. -/
theorem val_add {a b : Scalar} (ha : a.val < Der.secpOrder) (hb : b.val < Der.secpOrder) :
    (a.add b).1.val = (a.val + b.val) % Der.secpOrder := by
  have a0 := a.d0.toNat_lt
  have a1 := a.d1.toNat_lt
  have a2 := a.d2.toNat_lt
  have a3 := a.d3.toNat_lt
  have b0 := b.d0.toNat_lt
  have b1 := b.d1.toNat_lt
  have b2 := b.d2.toNat_lt
  have b3 := b.d3.toNat_lt
  simp only [add]
  generalize hr : Scalar.mk _ _ _ _ = r
  generalize ht : (((a.d0.toNat + b.d0.toNat) / 2 ^ 64 + (a.d1.toNat + b.d1.toNat)) / 2 ^ 64 +
    (a.d2.toNat + b.d2.toNat)) / 2 ^ 64 + (a.d3.toNat + b.d3.toNat) = t
  have hsum : r.val + 2 ^ 256 * (t / 2 ^ 64) = a.val + b.val := by
    simp only [← hr, ← ht, val, UInt64.toNat_ofNat']
    omega
  obtain ⟨hlt, k, hk⟩ := r.reduce_carry (t / 2 ^ 64) (by omega)
  rw [← hsum, ← hk, Nat.add_mul_mod_self_right, Nat.mod_eq_of_lt hlt]

/-- The complement of the number, the order and one, without what is carried out. -/
theorem val_negate {a : Scalar} (ha : a.val < Der.secpOrder) :
    a.negate.val = (Der.secpOrder - a.val) % Der.secpOrder := by
  cases hzero : a.isZero with
  | true =>
    have hval := (isZero_iff a).mp hzero
    simp only [negate, hzero, if_true, UInt64.mul_zero, UInt64.and_zero, val, UInt64.toNat_zero] at hval ⊢
    simp only [hval, Nat.sub_zero, Nat.mod_self]
    omega
  | false =>
    have hpos : a.val ≠ 0 := by
      intro hval
      rw [(isZero_iff a).mpr hval] at hzero
      cases hzero
    have a0 := a.d0.toNat_lt
    have a1 := a.d1.toNat_lt
    have a2 := a.d2.toNat_lt
    have a3 := a.d3.toNat_lt
    have n0 : order.d0.toNat = 0xBFD25E8CD0364141 := rfl
    have n1 : order.d1.toNat = 0xBAAEDCE6AF48A03B := rfl
    have n2 : order.d2.toNat = 0xFFFFFFFFFFFFFFFE := rfl
    have n3 : order.d3.toNat = 0xFFFFFFFFFFFFFFFF := rfl
    have hmask (x : UInt64) : x &&& 0xFFFFFFFFFFFFFFFF * 1 = x := by
      rw [UInt64.mul_one]
      exact UInt64.and_neg_one
    have hmod : (Der.secpOrder - a.val) % Der.secpOrder = Der.secpOrder - a.val := by
      apply Nat.mod_eq_of_lt
      simp only [Der.secpOrder] at ha ⊢
      omega
    rw [hmod]
    simp only [negate, hzero, Bool.false_eq_true, if_false, hmask, UInt64.toNat_not, n0, n1, n2, n3]
    simp only [val, UInt64.toNat_ofNat', Der.secpOrder, UInt64.size] at ha ⊢
    omega

/-! ## Products -/

/-- The eight words of the product are the product. -/
theorem val_mul512 (a b : Scalar) : (mul512 a b).val = a.val * b.val := by
  have hsum : a.val * b.val = a.d0.toNat * b.d0.toNat +
      2 ^ 64 * (a.d0.toNat * b.d1.toNat + a.d1.toNat * b.d0.toNat) +
      2 ^ 128 * (a.d0.toNat * b.d2.toNat + a.d1.toNat * b.d1.toNat + a.d2.toNat * b.d0.toNat) +
      2 ^ 192 * (a.d0.toNat * b.d3.toNat + a.d1.toNat * b.d2.toNat + a.d2.toNat * b.d1.toNat +
        a.d3.toNat * b.d0.toNat) +
      2 ^ 256 * (a.d1.toNat * b.d3.toNat + a.d2.toNat * b.d2.toNat + a.d3.toNat * b.d1.toNat) +
      2 ^ 256 * 2 ^ 64 * (a.d2.toNat * b.d3.toNat + a.d3.toNat * b.d2.toNat) +
      2 ^ 256 * 2 ^ 128 * (a.d3.toNat * b.d3.toNat) := by
    unfold val
    ring
  have hlt : a.val * b.val < 2 ^ 256 * 2 ^ 256 := Nat.mul_lt_mul_of_lt_of_lt a.val_lt b.val_lt
  rw [hsum] at hlt ⊢
  have h00 := mul_le_words a.d0 b.d0
  have h01 := mul_le_words a.d0 b.d1
  have h02 := mul_le_words a.d0 b.d2
  have h03 := mul_le_words a.d0 b.d3
  have h10 := mul_le_words a.d1 b.d0
  have h11 := mul_le_words a.d1 b.d1
  have h12 := mul_le_words a.d1 b.d2
  have h13 := mul_le_words a.d1 b.d3
  have h20 := mul_le_words a.d2 b.d0
  have h21 := mul_le_words a.d2 b.d1
  have h22 := mul_le_words a.d2 b.d2
  have h23 := mul_le_words a.d2 b.d3
  have h30 := mul_le_words a.d3 b.d0
  have h31 := mul_le_words a.d3 b.d1
  have h32 := mul_le_words a.d3 b.d2
  have h33 := mul_le_words a.d3 b.d3
  simp only [mul512]
  have v0 : ((Acc.mk 0 0 0 : Acc 32).muladdFast a.d0 b.d0).val = a.d0.toNat * b.d0.toNat := by
    rw [Acc.val_muladdFast _ _ _ (by rw [Acc.val_word, UInt64.toNat_zero]; omega), Acc.val_word,
      UInt64.toNat_zero, Nat.zero_add]
  generalize (Acc.mk 0 0 0 : Acc 32).muladdFast a.d0 b.d0 = acc0 at *
  have x0 := Acc.val_extractFast acc0 (by omega)
  generalize acc0.extractFast = rest0 at *
  have v1 : ((rest0.muladd a.d0 b.d1).muladd a.d1 b.d0).val =
      rest0.val + a.d0.toNat * b.d1.toNat + a.d1.toNat * b.d0.toNat := by
    rw [Acc.val_muladd, Acc.val_muladd]
    simp only [Nat.mod_add_mod]
    exact Nat.mod_eq_of_lt (by omega)
  generalize (rest0.muladd a.d0 b.d1).muladd a.d1 b.d0 = acc1 at *
  have x1 := Acc.val_extract acc1 (by decide)
  generalize acc1.extract = rest1 at *
  have v2 : (((rest1.muladd a.d0 b.d2).muladd a.d1 b.d1).muladd a.d2 b.d0).val =
      rest1.val + a.d0.toNat * b.d2.toNat + a.d1.toNat * b.d1.toNat + a.d2.toNat * b.d0.toNat := by
    rw [Acc.val_muladd, Acc.val_muladd, Acc.val_muladd]
    simp only [Nat.mod_add_mod]
    exact Nat.mod_eq_of_lt (by omega)
  generalize ((rest1.muladd a.d0 b.d2).muladd a.d1 b.d1).muladd a.d2 b.d0 = acc2 at *
  have x2 := Acc.val_extract acc2 (by decide)
  generalize acc2.extract = rest2 at *
  have v3 : ((((rest2.muladd a.d0 b.d3).muladd a.d1 b.d2).muladd a.d2 b.d1).muladd a.d3 b.d0).val =
      rest2.val + a.d0.toNat * b.d3.toNat + a.d1.toNat * b.d2.toNat + a.d2.toNat * b.d1.toNat +
        a.d3.toNat * b.d0.toNat := by
    rw [Acc.val_muladd, Acc.val_muladd, Acc.val_muladd, Acc.val_muladd]
    simp only [Nat.mod_add_mod]
    exact Nat.mod_eq_of_lt (by omega)
  generalize (((rest2.muladd a.d0 b.d3).muladd a.d1 b.d2).muladd a.d2 b.d1).muladd a.d3 b.d0 = acc3 at *
  have x3 := Acc.val_extract acc3 (by decide)
  generalize acc3.extract = rest3 at *
  have v4 : (((rest3.muladd a.d1 b.d3).muladd a.d2 b.d2).muladd a.d3 b.d1).val =
      rest3.val + a.d1.toNat * b.d3.toNat + a.d2.toNat * b.d2.toNat + a.d3.toNat * b.d1.toNat := by
    rw [Acc.val_muladd, Acc.val_muladd, Acc.val_muladd]
    simp only [Nat.mod_add_mod]
    exact Nat.mod_eq_of_lt (by omega)
  generalize ((rest3.muladd a.d1 b.d3).muladd a.d2 b.d2).muladd a.d3 b.d1 = acc4 at *
  have x4 := Acc.val_extract acc4 (by decide)
  generalize acc4.extract = rest4 at *
  have v5 : ((rest4.muladd a.d2 b.d3).muladd a.d3 b.d2).val =
      rest4.val + a.d2.toNat * b.d3.toNat + a.d3.toNat * b.d2.toNat := by
    rw [Acc.val_muladd, Acc.val_muladd]
    simp only [Nat.mod_add_mod]
    exact Nat.mod_eq_of_lt (by omega)
  generalize (rest4.muladd a.d2 b.d3).muladd a.d3 b.d2 = acc5 at *
  have x5 := Acc.val_extract acc5 (by decide)
  generalize acc5.extract = rest5 at *
  -- the last word does not overflow, since the product is below 512 bits
  have v6 := Acc.val_muladdFast rest5 a.d3 b.d3 (by omega)
  generalize rest5.muladdFast a.d3 b.d3 = acc6 at *
  have x6 := Acc.val_extractFast acc6 (by omega)
  have v7 := Acc.toNat_c0 acc6.extractFast (by omega)
  generalize acc6.extractFast = rest6 at *
  simp only [Wide.val]
  omega

/-- The first part takes the high words times the order away. -/
theorem val_reduce385 (l : Wide) :
    (reduce385 l).val + l.high * Der.secpOrder = l.val ∧ (reduce385 l).l6.toNat ≤ 1 ∧ (reduce385 l).l7 = 0 := by
  obtain ⟨n0, n1, -⟩ := toNat_nC
  have b0 := l.l0.toNat_lt
  have b1 := l.l1.toNat_lt
  have b2 := l.l2.toNat_lt
  have b3 := l.l3.toNat_lt
  have b4 := l.l4.toNat_lt
  have b5 := l.l5.toNat_lt
  have b6 := l.l6.toNat_lt
  have b7 := l.l7.toNat_lt
  simp only [reduce385]
  have v0 : ((Acc.mk l.l0 0 0 : Acc 64).muladdFast l.l4 nC0).val = l.l0.toNat + l.l4.toNat * 0x402DA1732FC9BEBF := by
    rw [Acc.val_muladdFast _ _ _ (by rw [Acc.val_word, n0]; omega), n0, Acc.val_word]
  generalize (Acc.mk l.l0 0 0 : Acc 64).muladdFast l.l4 nC0 = acc0 at *
  have x0 := Acc.val_extractFast acc0 (by omega)
  generalize acc0.extractFast = rest0 at *
  have v1 : (((rest0.sumaddFast l.l1).muladd l.l5 nC0).muladd l.l4 nC1).val =
      rest0.val + l.l1.toNat + l.l5.toNat * 0x402DA1732FC9BEBF + l.l4.toNat * 0x4551231950B75FC4 := by
    rw [Acc.val_muladd, Acc.val_muladd, Acc.val_sumaddFast _ _ (by omega), n0, n1]
    simp only [Nat.mod_add_mod]
    exact Nat.mod_eq_of_lt (by omega)
  generalize ((rest0.sumaddFast l.l1).muladd l.l5 nC0).muladd l.l4 nC1 = acc1 at *
  have x1 := Acc.val_extract acc1 (by decide)
  generalize acc1.extract = rest1 at *
  have v2 : ((((rest1.sumadd l.l2).muladd l.l6 nC0).muladd l.l5 nC1).sumadd l.l4).val =
      rest1.val + l.l2.toNat + l.l6.toNat * 0x402DA1732FC9BEBF + l.l5.toNat * 0x4551231950B75FC4 +
        l.l4.toNat := by
    rw [Acc.val_sumadd, Acc.val_muladd, Acc.val_muladd, Acc.val_sumadd, n0, n1]
    simp only [Nat.mod_add_mod]
    exact Nat.mod_eq_of_lt (by omega)
  generalize (((rest1.sumadd l.l2).muladd l.l6 nC0).muladd l.l5 nC1).sumadd l.l4 = acc2 at *
  have x2 := Acc.val_extract acc2 (by decide)
  generalize acc2.extract = rest2 at *
  have v3 : ((((rest2.sumadd l.l3).muladd l.l7 nC0).muladd l.l6 nC1).sumadd l.l5).val =
      rest2.val + l.l3.toNat + l.l7.toNat * 0x402DA1732FC9BEBF + l.l6.toNat * 0x4551231950B75FC4 +
        l.l5.toNat := by
    rw [Acc.val_sumadd, Acc.val_muladd, Acc.val_muladd, Acc.val_sumadd, n0, n1]
    simp only [Nat.mod_add_mod]
    exact Nat.mod_eq_of_lt (by omega)
  generalize (((rest2.sumadd l.l3).muladd l.l7 nC0).muladd l.l6 nC1).sumadd l.l5 = acc3 at *
  have x3 := Acc.val_extract acc3 (by decide)
  generalize acc3.extract = rest3 at *
  have v4 : ((rest3.muladd l.l7 nC1).sumadd l.l6).val =
      rest3.val + l.l7.toNat * 0x4551231950B75FC4 + l.l6.toNat := by
    rw [Acc.val_sumadd, Acc.val_muladd, n1]
    simp only [Nat.mod_add_mod]
    exact Nat.mod_eq_of_lt (by omega)
  generalize (rest3.muladd l.l7 nC1).sumadd l.l6 = acc4 at *
  have x4 := Acc.val_extract acc4 (by decide)
  generalize acc4.extract = rest4 at *
  have v5 := Acc.val_sumaddFast rest4 l.l7 (by omega)
  generalize rest4.sumaddFast l.l7 = acc5 at *
  have x5 := Acc.val_extractFast acc5 (by omega)
  generalize acc5.extractFast = rest5 at *
  have hle : rest5.val ≤ 1 := by omega
  have hlast : rest5.c0.toUInt32.toUInt64.toNat = rest5.val := by
    rw [← Acc.toNat_c0 rest5 (by omega)] at hle ⊢
    simp only [UInt32.toNat_toUInt64, UInt64.toNat_toUInt32]
    omega
  refine ⟨?_, hlast ▸ hle, trivial⟩
  simp only [Wide.val, Wide.high, hlast, Der.secpOrder, UInt64.toNat_zero]
  omega

/-- The second part does it again. -/
theorem val_reduce258 {m : Wide} (h6 : m.l6.toNat ≤ 1) (h7 : m.l7 = 0) :
    (reduce258 m).1.val + 2 ^ 256 * (reduce258 m).2 + m.high * Der.secpOrder = m.val ∧
      (reduce258 m).2 ≤ 3 := by
  obtain ⟨n0, n1, -⟩ := toNat_nC
  have b0 := m.l0.toNat_lt
  have b1 := m.l1.toNat_lt
  have b2 := m.l2.toNat_lt
  have b3 := m.l3.toNat_lt
  have b4 := m.l4.toNat_lt
  have b5 := m.l5.toNat_lt
  simp only [reduce258]
  have v0 : ((Acc.mk m.l0 0 0 : Acc 64).muladdFast m.l4 nC0).val = m.l0.toNat + m.l4.toNat * 0x402DA1732FC9BEBF := by
    rw [Acc.val_muladdFast _ _ _ (by rw [Acc.val_word, n0]; omega), n0, Acc.val_word]
  generalize (Acc.mk m.l0 0 0 : Acc 64).muladdFast m.l4 nC0 = acc0 at *
  have x0 := Acc.val_extractFast acc0 (by omega)
  generalize acc0.extractFast = rest0 at *
  have v1 : (((rest0.sumaddFast m.l1).muladd m.l5 nC0).muladd m.l4 nC1).val =
      rest0.val + m.l1.toNat + m.l5.toNat * 0x402DA1732FC9BEBF + m.l4.toNat * 0x4551231950B75FC4 := by
    rw [Acc.val_muladd, Acc.val_muladd, Acc.val_sumaddFast _ _ (by omega), n0, n1]
    simp only [Nat.mod_add_mod]
    exact Nat.mod_eq_of_lt (by omega)
  generalize ((rest0.sumaddFast m.l1).muladd m.l5 nC0).muladd m.l4 nC1 = acc1 at *
  have x1 := Acc.val_extract acc1 (by decide)
  generalize acc1.extract = rest1 at *
  have v2 : ((((rest1.sumadd m.l2).muladd m.l6 nC0).muladd m.l5 nC1).sumadd m.l4).val =
      rest1.val + m.l2.toNat + m.l6.toNat * 0x402DA1732FC9BEBF + m.l5.toNat * 0x4551231950B75FC4 +
        m.l4.toNat := by
    rw [Acc.val_sumadd, Acc.val_muladd, Acc.val_muladd, Acc.val_sumadd, n0, n1]
    simp only [Nat.mod_add_mod]
    exact Nat.mod_eq_of_lt (by omega)
  generalize (((rest1.sumadd m.l2).muladd m.l6 nC0).muladd m.l5 nC1).sumadd m.l4 = acc2 at *
  have x2 := Acc.val_extract acc2 (by decide)
  generalize acc2.extract = rest2 at *
  have s3 := Acc.val_sumaddFast rest2 m.l3 (by omega)
  generalize rest2.sumaddFast m.l3 = sum3 at *
  have p3 := Acc.val_muladdFast sum3 m.l6 nC1 (by rw [n1]; omega)
  rw [n1] at p3
  generalize sum3.muladdFast m.l6 nC1 = product3 at *
  have v3 := Acc.val_sumaddFast product3 m.l5 (by omega)
  generalize product3.sumaddFast m.l5 = acc3 at *
  have x3 := Acc.val_extractFast acc3 (by omega)
  generalize acc3.extractFast = rest3 at *
  have hlast : (rest3.c0 + m.l6).toUInt32.toNat = rest3.val + m.l6.toNat := by
    rw [UInt64.toNat_toUInt32, UInt64.toNat_add, Acc.toNat_c0 rest3 (by omega)]
    omega
  simp only [Wide.val, Wide.high, val, hlast, Der.secpOrder, h7, UInt64.toNat_zero]
  omega

/-- The third part takes the rest of the order away, up to a carry. -/
theorem val_reduce256 (p : Scalar) (p4 : ℕ) :
    (reduce256 p p4).1.val + 2 ^ 256 * (reduce256 p p4).2 + p4 * Der.secpOrder = p.val + 2 ^ 256 * p4 := by
  obtain ⟨n0, n1, -⟩ := toNat_nC
  have h0 := p.d0.toNat_lt
  have h1 := p.d1.toNat_lt
  have h2 := p.d2.toNat_lt
  have h3 := p.d3.toNat_lt
  simp only [reduce256, val, n0, n1, UInt64.toNat_ofNat', Der.secpOrder]
  omega

/-- The eight words are reduced to the residue. -/
theorem val_reduce512 (l : Wide) : (reduce512 l).val = l.val % Der.secpOrder := by
  obtain ⟨hfirst, h6, h7⟩ := val_reduce385 l
  obtain ⟨hsecond, h4⟩ := val_reduce258 h6 h7
  have hthird := val_reduce256 (reduce258 (reduce385 l)).1 (reduce258 (reduce385 l)).2
  simp only [reduce512]
  generalize (reduce385 l).high = high at *
  generalize reduce258 (reduce385 l) = second at *
  obtain ⟨p, p4⟩ := second
  simp only at hsecond h4 hthird ⊢
  generalize reduce256 p p4 = third at *
  obtain ⟨r, c⟩ := third
  simp only at hthird ⊢
  obtain ⟨hlt, k, hk⟩ := r.reduce_carry c (by
    have hp := p.val_lt
    simp only [Der.secpOrder] at hthird ⊢
    omega)
  have hsum : l.val = (r.reduce (c + r.checkOverflow.toNat)).val + Der.secpOrder * (k + p4 + high + l.high) := by
    rw [← hfirst, ← hsecond, ← hthird, ← hk]
    ring
  rw [hsum, Nat.add_mul_mod_self_left, Nat.mod_eq_of_lt hlt]

/-! ## Bytes -/

/-- A word is the number of its bytes. -/
theorem toNat_word (b : Bytes) (h : b.length ≤ 8) : (word b).toNat = asNat b := by
  induction b using List.reverseRecOn with
  | nil => rfl
  | append_singleton b x ih =>
    rw [List.length_append, List.length_singleton] at h
    have hfirst := ih (by omega)
    have hlt : asNat b < 256 ^ 7 :=
      lt_of_lt_of_le (asNat_lt b) (Nat.pow_le_pow_right (by decide) (by omega))
    have hshift : asNat b <<< 8 % 2 ^ 64 = asNat b <<< 8 := by
      rw [Nat.shiftLeft_eq]
      exact Nat.mod_eq_of_lt (by omega)
    have hstep : word (b ++ [x]) = word b <<< 8 ||| x.toUInt64 := by
      rw [word, List.foldl_append]
      rfl
    rw [hstep, UInt64.toNat_or, UInt64.toNat_shiftLeft, UInt8.toNat_toUInt64, hfirst]
    rw [show (8 : UInt64).toNat % 64 = 8 from rfl, hshift]
    rw [← Nat.shiftLeft_add_eq_or_of_lt x.toNat_lt, Nat.shiftLeft_eq, asNat_concat]

theorem asNat_wordBytes (d : UInt64) : asNat (wordBytes d) = d.toNat := by
  have hbytes : wordBytes d = [(d >>> 56).toUInt8, (d >>> 48).toUInt8, (d >>> 40).toUInt8, (d >>> 32).toUInt8,
    (d >>> 24).toUInt8, (d >>> 16).toUInt8, (d >>> 8).toUInt8, (d >>> 0).toUInt8] := rfl
  have hd := d.toNat_lt
  rw [hbytes]
  simp only [asNat, List.foldl, UInt64.toNat_toUInt8, UInt64.toNat_shiftRight, UInt64.toNat_ofNat,
    Nat.shiftRight_eq_div_pow]
  simp only [Nat.reduceMod, Nat.reducePow] at hd ⊢
  omega

@[simp] theorem length_wordBytes (d : UInt64) : (wordBytes d).length = 8 := rfl

/-- The bytes of a scalar are those of its number. -/
theorem getB32_eq (a : Scalar) : a.getB32 = ofNat 32 a.val := by
  have hnumber : asNat a.getB32 = a.val := by
    simp only [getB32, asNat_append, asNat_wordBytes, length_wordBytes, val]
    ring
  have hlength : a.getB32.length = 32 := rfl
  rw [← hnumber, ← hlength, ofNat_asNat]

/-- A scalar is set from bytes as its residue is. -/
theorem setB32_spec {b32 : Bytes} (h : b32.length = 32) :
    (setB32 b32).1.val = asNat b32 % Der.secpOrder ∧
      (setB32 b32).2 = decide (Der.secpOrder ≤ asNat b32) := by
  generalize hr : (Scalar.mk (word ((b32.drop 24).take 8)) (word ((b32.drop 16).take 8))
    (word ((b32.drop 8).take 8)) (word (b32.take 8))) = r
  have hnumber : r.val = asNat b32 := by
    have hbytes : b32.take 8 ++ ((b32.drop 8).take 8 ++ ((b32.drop 16).take 8 ++ (b32.drop 24).take 8)) =
        b32 := by
      have hlast : (b32.drop 24).take 8 = b32.drop 24 :=
        List.take_of_length_le (by rw [List.length_drop]; omega)
      have hthird : (b32.drop 16).take 8 ++ b32.drop 24 = b32.drop 16 := by
        have hsplit := List.take_append_drop 8 (b32.drop 16)
        rw [List.drop_drop] at hsplit
        exact hsplit
      have hsecond : (b32.drop 8).take 8 ++ b32.drop 16 = b32.drop 8 := by
        have hsplit := List.take_append_drop 8 (b32.drop 8)
        rw [List.drop_drop] at hsplit
        exact hsplit
      rw [hlast, hthird, hsecond, List.take_append_drop]
    have hlength (k : ℕ) (hk : k ≤ 24) : ((b32.drop k).take 8).length = 8 := by
      rw [List.length_take, List.length_drop]
      omega
    have hfirst : (b32.take 8).length = 8 := hlength 0 (by decide)
    have hsum := congrArg asNat hbytes
    simp only [asNat_append, List.length_append, hlength 8 (by decide), hlength 16 (by decide),
      hlength 24 le_rfl] at hsum
    rw [← hr, ← hsum]
    simp only [val]
    rw [toNat_word _ (hlength 24 le_rfl).le, toNat_word _ (hlength 16 (by decide)).le,
      toNat_word _ (hlength 8 (by decide)).le, toNat_word _ hfirst.le]
    ring
  have hset : setB32 b32 = (r.reduce r.checkOverflow.toNat, r.checkOverflow) := by
    rw [setB32, hr]
  obtain ⟨hlt, k, hk⟩ := r.reduce_carry 0 (by
    have hlt := r.val_lt
    simp only [Der.secpOrder]
    omega)
  rw [zero_add] at hlt hk
  rw [hset, ← hnumber]
  refine ⟨?_, ?_⟩
  · have hsum : r.val = (r.reduce r.checkOverflow.toNat).val + k * Der.secpOrder := by omega
    rw [hsum, Nat.add_mul_mod_self_right, Nat.mod_eq_of_lt hlt]
  · exact Bool.eq_iff_iff.mpr (by rw [checkOverflow_iff, decide_eq_true_eq])

/-! ## Residues -/

/-- The residue that a scalar stands for. -/
def residue (a : Scalar) : ZMod Der.secpOrder := a.val

theorem val_lt_secpOrder {a : Scalar} (h : a.checkOverflow = false) : a.val < Der.secpOrder := by
  by_contra hge
  rw [(checkOverflow_iff a).mpr (not_lt.mp hge)] at h
  cases h

theorem checkOverflow_eq_false {a : Scalar} (h : a.val < Der.secpOrder) : a.checkOverflow = false :=
  Bool.eq_false_iff.mpr fun hover => absurd ((checkOverflow_iff a).mp hover) (Nat.not_le.mpr h)

/-- A result whose number was reduced has the residue, and is in range. -/
theorem residue_of_val {r : Scalar} {m : ℕ} (h : r.val = m % Der.secpOrder) :
    r.residue = m ∧ r.checkOverflow = false := by
  refine ⟨?_, checkOverflow_eq_false ?_⟩
  · rw [residue, h, ZMod.natCast_mod]
  · rw [h]
    exact Nat.mod_lt _ (by decide)

theorem val_residue {a : Scalar} (h : a.checkOverflow = false) : a.residue.val = a.val :=
  ZMod.val_cast_of_lt (val_lt_secpOrder h)

/-- The words are known by their number. -/
theorem eq_of_val {a b : Scalar} (h : a.val = b.val) : a = b := by
  have a0 := a.d0.toNat_lt
  have a1 := a.d1.toNat_lt
  have a2 := a.d2.toNat_lt
  have b0 := b.d0.toNat_lt
  have b1 := b.d1.toNat_lt
  have b2 := b.d2.toNat_lt
  cases a with
  | mk a0 a1 a2 a3 =>
    cases b with
    | mk b0 b1 b2 b3 =>
      simp only [val] at *
      simp only [Scalar.mk.injEq, ← UInt64.toNat_inj]
      omega

/-- What is read from bytes is the residue of their number in range, with the flag of the abstract reader. -/
theorem setB32_refines {b32 : Bytes} (h : b32.length = 32) :
    (setB32 b32).1.residue = (Curve.scalarSetB32 Der.secpOrder b32).1 ∧
      (setB32 b32).2 = (Curve.scalarSetB32 Der.secpOrder b32).2 ∧
      (setB32 b32).1.checkOverflow = false := by
  obtain ⟨hval, hflag⟩ := setB32_spec h
  obtain ⟨hresidue, hrange⟩ := residue_of_val hval
  exact ⟨hresidue, hflag, hrange⟩

/-- On scalars in range the operations are those of the residues, and their results are in range. Two scalars
in range with the same residue are the same. -/
theorem scalar_refines {a b : Scalar} (ha : a.checkOverflow = false) (hb : b.checkOverflow = false) :
    ((a.add b).1.residue = a.residue + b.residue ∧ (a.add b).1.checkOverflow = false) ∧
      ((a.mul b).residue = a.residue * b.residue ∧ (a.mul b).checkOverflow = false) ∧
      (a.negate.residue = -a.residue ∧ a.negate.checkOverflow = false) ∧
      (a.isZero = decide (a.residue = 0) ∧ a.isHigh = Ecdsa.scalarIsHigh a.residue) ∧
      (∀ b32 : Bytes, b32.length = 32 → (setB32 b32).1.residue = (Curve.scalarSetB32 Der.secpOrder b32).1 ∧
        (setB32 b32).2 = (Curve.scalarSetB32 Der.secpOrder b32).2 ∧ (setB32 b32).1.checkOverflow = false) ∧
      a.getB32 = Curve.scalarGetB32 a.residue ∧
      (a.residue = b.residue → a = b) := by
  have ha' := val_lt_secpOrder ha
  refine ⟨?_, ?_, ?_, ⟨?_, ?_⟩, fun b32 => setB32_refines, ?_, fun h => eq_of_val ?_⟩
  · obtain ⟨hsum, hrange⟩ := residue_of_val (val_add ha' (val_lt_secpOrder hb))
    exact ⟨by rw [hsum, Nat.cast_add]; rfl, hrange⟩
  · have hval : (a.mul b).val = a.val * b.val % Der.secpOrder := by rw [mul, val_reduce512, val_mul512]
    obtain ⟨hproduct, hrange⟩ := residue_of_val hval
    exact ⟨by rw [hproduct, Nat.cast_mul]; rfl, hrange⟩
  · obtain ⟨hneg, hrange⟩ := residue_of_val (val_negate ha')
    refine ⟨?_, hrange⟩
    rw [hneg, Nat.cast_sub ha'.le, ZMod.natCast_self, zero_sub]
    rfl
  · refine Bool.eq_iff_iff.mpr ?_
    rw [isZero_iff, decide_eq_true_eq, ← ZMod.val_eq_zero, val_residue ha]
  · refine Bool.eq_iff_iff.mpr ?_
    rw [isHigh_iff, Ecdsa.scalarIsHigh, decide_eq_true_eq, val_residue ha]
  · rw [getB32_eq, Curve.scalarGetB32, val_residue ha]
  · rw [← val_residue ha, ← val_residue hb, h]

/-- The order less one. -/
def orderLessOne : Scalar :=
  ⟨0xBFD25E8CD0364140, 0xBAAEDCE6AF48A03B, 0xFFFFFFFFFFFFFFFE, 0xFFFFFFFFFFFFFFFF⟩

/-- A scalar below the order whose sum and product with `orderLessOne` are above it. -/
def largeScalar : Scalar :=
  ⟨0x0123456789ABCDEF, 0xFEDCBA9876543210, 0xFFFFFFFFFFFFFFFD, 0xFFFFFFFFFFFFFFFF⟩

theorem scalar_refines_order :
    Der.secpOrder ≤ largeScalar.val + orderLessOne.val ∧
      ((largeScalar.add orderLessOne).1.residue = largeScalar.residue + orderLessOne.residue ∧
        (largeScalar.add orderLessOne).1.checkOverflow = false) ∧
      ((largeScalar.mul orderLessOne).residue = largeScalar.residue * orderLessOne.residue ∧
        (largeScalar.mul orderLessOne).checkOverflow = false) ∧
      (largeScalar.negate.residue = -largeScalar.residue ∧ largeScalar.negate.checkOverflow = false) ∧
      (largeScalar.isZero = decide (largeScalar.residue = 0) ∧
        largeScalar.isHigh = Ecdsa.scalarIsHigh largeScalar.residue) ∧
      (∀ b32 : Bytes, b32.length = 32 → (setB32 b32).1.residue = (Curve.scalarSetB32 Der.secpOrder b32).1 ∧
        (setB32 b32).2 = (Curve.scalarSetB32 Der.secpOrder b32).2 ∧ (setB32 b32).1.checkOverflow = false) ∧
      largeScalar.getB32 = Curve.scalarGetB32 largeScalar.residue ∧
      (largeScalar.residue = orderLessOne.residue → largeScalar = orderLessOne) :=
  ⟨by decide, scalar_refines (a := largeScalar) (b := orderLessOne) (by decide) (by decide)⟩

end Scalar

end GrinDotnet
