import Mathlib.Data.Nat.Size
import GrinDotnet.Lib.BigEndian

/-!
# The parameters of a range proof

`secp256k1_range_proveparams` splits a value into a public minimum, a power of ten and digits in base
four, and the header of the proof says how. `secp256k1_rangeproof_getheader_impl` reads the header. It
refuses a range that does not fit into a word.

Results:
1. `proveParams_spec`: what the parameters make of the value, and that nothing overflows.
2. `getHeader_append`: the header that was written is read back, as the range of the proof.
-/

namespace GrinDotnet

open BigEndian

namespace Rangeproof

/-- `secp256k1_clz64_var`. -/
def clz64 (x : UInt64) : ℕ := 64 - x.toNat.size

/-- The loop that takes decimal digits off the value, as long as the mask has room: the value and the
number of digits. -/
def maskDigits : ℕ → UInt64 → UInt64 → ℕ → UInt64 × ℕ
  | 0, v, _, i => (v, i)
  | left + 1, v, v2, i =>
    if v2 ≤ 0xFFFFFFFFFFFFFFFF / 10 then maskDigits left (v / 10) (v2 * 10) (i + 1) else (v, i)

/-- The loop that multiplies by ten. -/
def timesTen : ℕ → UInt64 → UInt64
  | 0, x => x
  | left + 1, x => timesTen left (x * 10)

/-- What `secp256k1_range_proveparams` hands over. -/
structure Params where
  v : UInt64
  rsizes : List ℕ
  npub : ℕ
  secidx : ℕ → ℕ
  minValue : UInt64
  mantissa : ℕ
  scale : UInt64
  exp : ℕ

/-- The number of rings. -/
def Params.rings (p : Params) : ℕ := p.rsizes.length

/-- The size of the ring of a digit: four, or two for the last one of an odd number of bits. -/
def ringSize (mantissa rings i : ℕ) : ℕ := if i < rings - 1 ∨ mantissa % 2 = 0 then 4 else 2

/-- The digit of a ring. -/
def digitAt (v : UInt64) (i : ℕ) : ℕ := ((v >>> UInt64.ofNat (i * 2)) &&& 3).toNat

/-- The parameters of a proof for an exact value. -/
def exactParams (value : UInt64) : Params where
  v := 0
  rsizes := [1]
  npub := 2
  secidx := fun _ => 0
  minValue := value
  mantissa := 0
  scale := 1
  exp := 0

/-- How many bits the minimum leaves room for. -/
def maxBits (minValue : UInt64) : ℕ := if minValue ≠ 0 then clz64 minValue else 64

/-- The bits that are asked for, as far as there is room. -/
def clampBits (minValue : UInt64) (minBits : ℕ) : ℕ :=
  if minBits > maxBits minValue then maxBits minValue else minBits

/-- Large values have no exponent. -/
def clampExp (minBits : ℕ) (value : UInt64) (exp : ℕ) : ℕ :=
  if minBits > 61 ∨ value > 0x7FFFFFFFFFFFFFFF then 0 else exp

/-- The largest value of so many bits. -/
def maskOf (minBits : ℕ) : UInt64 :=
  if minBits ≠ 0 then 0xFFFFFFFFFFFFFFFF >>> UInt64.ofNat (64 - minBits) else 0

/-- The bits of the proof: those of the value, or those that were asked for. -/
def mantissaOf (v : UInt64) (minBits : ℕ) : ℕ :=
  let mantissa := if v ≠ 0 then 64 - clz64 v else 1
  if minBits > mantissa then minBits else mantissa

/-- The parameters of a proof for a masked value. -/
def maskedParams (value v : UInt64) (exp minBits : ℕ) : Params :=
  let mantissa := mantissaOf v minBits
  let rings := (mantissa + 1) / 2
  let rsizes := (List.range rings).map (ringSize mantissa rings)
  { v
    rsizes
    npub := rsizes.sum
    secidx := digitAt v
    minValue := value - timesTen exp v
    mantissa
    scale := timesTen exp 1
    exp }

/-- The parameters of a proof for a range. -/
def rangeParams (minValue value : UInt64) (exp minBits : ℕ) : Params :=
  let minBits := clampBits minValue minBits
  let exp := clampExp minBits value exp
  let (v, exp) := maskDigits exp (value - minValue) (maskOf minBits) 0
  maskedParams value v exp minBits

/-- `secp256k1_range_proveparams`. -/
def proveParams (minValue value : UInt64) (exp : ℤ) (minBits : ℕ) : Option Params :=
  let exp := if minValue = 0xFFFFFFFFFFFFFFFF then -1 else exp
  if 0 ≤ exp then
    if (minValue ≠ 0 ∧ value > 0x7FFFFFFFFFFFFFFF) ∨ (value ≠ 0 ∧ minValue ≥ 0x7FFFFFFFFFFFFFFF) then none
    else some (rangeParams minValue value exp.toNat minBits)
  else some (exactParams value)

/-! ## What the parameters say -/

/-- The parameters split the value, and the largest value with as many digits fits into a word. -/
structure Params.Splits (p : Params) (minValue value : UInt64) : Prop where
  value_eq : p.v.toNat * p.scale.toNat + p.minValue.toNat = value.toNat
  scale_eq : p.scale.toNat = 10 ^ p.exp
  exp_le : p.exp ≤ 18
  minValue_le : minValue.toNat ≤ p.minValue.toNat
  v_lt : p.v.toNat < 2 ^ p.mantissa
  range_lt : (2 ^ p.mantissa - 1) * p.scale.toNat + p.minValue.toNat < 2 ^ 64
  mantissa_le : p.mantissa ≤ 64
  exp_of_exact : p.mantissa = 0 → p.exp = 0

theorem toNat_mul_ten {x : UInt64} (h : x.toNat * 10 < 2 ^ 64) : (x * 10).toNat = x.toNat * 10 := by
  rw [UInt64.toNat_mul]
  exact Nat.mod_eq_of_lt h

theorem toNat_timesTen {k : ℕ} {x : UInt64} (h : x.toNat * 10 ^ k < 2 ^ 64) :
    (timesTen k x).toNat = x.toNat * 10 ^ k := by
  induction k generalizing x with
  | zero => rw [timesTen, pow_zero, mul_one]
  | succ k ih =>
    have hpos : 1 ≤ 10 ^ k := Nat.one_le_pow _ _ (by decide)
    rw [pow_succ'] at h ⊢
    rw [← mul_assoc] at h ⊢
    have hten : (x * 10).toNat = x.toNat * 10 :=
      toNat_mul_ten (lt_of_le_of_lt (Nat.le_mul_of_pos_right _ hpos) h)
    rw [timesTen, ih (by rwa [hten]), hten]

/-- The digits that are taken off are those that the mask has room for. -/
theorem maskDigits_spec (left : ℕ) (v v2 : UInt64) (i : ℕ) :
    ∃ d, d ≤ left ∧ (maskDigits left v v2 i).2 = i + d ∧
      (maskDigits left v v2 i).1.toNat = v.toNat / 10 ^ d ∧ v2.toNat * 10 ^ d < 2 ^ 64 := by
  induction left generalizing v v2 i with
  | zero => exact ⟨0, le_rfl, rfl, by simp [maskDigits], by simpa using v2.toNat_lt⟩
  | succ left ih =>
    rw [maskDigits]
    split
    · next hroom =>
      have hle : v2.toNat ≤ 0xFFFFFFFFFFFFFFFF / 10 := by
        simpa [UInt64.le_iff_toNat_le] using hroom
      have hten : (v2 * 10).toNat = v2.toNat * 10 := toNat_mul_ten (by omega)
      obtain ⟨d, hd, hexp, hv, hmask⟩ := ih (v / 10) (v2 * 10) (i + 1)
      refine ⟨d + 1, by omega, by omega, ?_, ?_⟩
      · rw [hv, UInt64.toNat_div, pow_succ', Nat.div_div_eq_div_mul]
        rfl
      · rwa [hten, mul_assoc, ← pow_succ'] at hmask
    · exact ⟨0, Nat.zero_le _, rfl, by simp, by simpa using v2.toNat_lt⟩

/-- The range is what decides about the largest value, not the value itself: with the bits of the
value. -/
theorem range_fits_of_size {a b e v : ℕ} (hab : a ≤ b) (hb : b < 2 ^ 64)
    (hbig : 2 ^ 63 ≤ b → a = 0 ∧ e = 0) (hv : v = (b - a) / 10 ^ e) (hne : v ≠ 0) :
    (2 ^ v.size - 1) * 10 ^ e + (b - v * 10 ^ e) < 2 ^ 64 := by
  have hle : v * 10 ^ e ≤ b - a := hv ▸ Nat.div_mul_le_self ..
  have hpow : 2 ^ v.size ≤ 2 * v := by
    have hpos : 0 < v.size := Nat.size_pos.mpr (Nat.pos_of_ne_zero hne)
    have hhalf : 2 ^ (v.size - 1) ≤ v := Nat.lt_size.mp (by omega)
    calc 2 ^ v.size = 2 * 2 ^ (v.size - 1) := by rw [← pow_succ', Nat.sub_add_cancel hpos]
      _ ≤ 2 * v := by omega
  by_cases hlarge : 2 ^ 63 ≤ b
  · obtain ⟨rfl, rfl⟩ := hbig hlarge
    obtain rfl : v = b := by simpa using hv
    have hsize : 2 ^ v.size ≤ 2 ^ 64 := Nat.pow_le_pow_right (by decide) (Nat.size_le.mpr hb)
    simp only [pow_zero, mul_one]
    omega
  · have hmul : (2 ^ v.size - 1) * 10 ^ e ≤ 2 * (v * 10 ^ e) := by
      calc (2 ^ v.size - 1) * 10 ^ e ≤ (2 * v) * 10 ^ e := Nat.mul_le_mul_right _ (by omega)
        _ = 2 * (v * 10 ^ e) := by ring
    omega

/-- With one bit, for the value zero. -/
theorem range_fits_of_zero {a b e : ℕ} (hab : a ≤ b) (he : e ≤ 18) (hmax : a < 2 ^ 64 - 1)
    (hbig : 2 ^ 63 ≤ b → a = 0 ∧ e = 0) (hv : 0 = (b - a) / 10 ^ e) :
    (2 ^ 1 - 1) * 10 ^ e + (b - 0 * 10 ^ e) < 2 ^ 64 := by
  have hlt : b - a < 10 ^ e := by
    rcases (Nat.div_eq_zero_iff).mp hv.symm with h | h
    · exact absurd h (Nat.pos_of_neZero (10 ^ e)).ne'
    · exact h
  have hten : 10 ^ e ≤ 10 ^ 18 := Nat.pow_le_pow_right (by decide) he
  by_cases hlarge : 2 ^ 63 ≤ b
  · obtain ⟨rfl, rfl⟩ := hbig hlarge
    simp only [pow_zero] at hlt
    omega
  · omega

/-- With the bits that were asked for. -/
theorem range_fits_of_minBits {a b e v mb : ℕ} (hab : a ≤ b) (hv : v = (b - a) / 10 ^ e) (he : e ≤ 18)
    (hmb : mb ≤ 64) (hroom : a ≠ 0 → mb + a.size ≤ 64) (hexp : 0 < e → mb ≤ 61) (hone : 1 < mb)
    (hmask : (2 ^ mb - 1) * 10 ^ e < 2 ^ 64) : (2 ^ mb - 1) * 10 ^ e + (b - v * 10 ^ e) < 2 ^ 64 := by
  have hpos : 1 ≤ 2 ^ mb := Nat.one_le_pow _ _ (by decide)
  have hless : b - v * 10 ^ e < a + 10 ^ e := by
    have hmod := Nat.div_add_mod (b - a) (10 ^ e)
    have hrest : (b - a) % 10 ^ e < 10 ^ e := Nat.mod_lt _ (Nat.pos_of_neZero _)
    rw [← hv, mul_comm] at hmod
    omega
  have hroom' : a < 2 ^ (64 - mb) := by
    by_cases ha : a = 0
    · rw [ha]
      exact Nat.pos_of_neZero _
    · exact lt_of_lt_of_le (Nat.lt_size_self a)
        (Nat.pow_le_pow_right (by decide) (by have := hroom ha; omega))
  cases e with
  | zero =>
    have hsum : 2 ^ mb * 2 ^ (64 - mb) = 2 ^ 64 := by
      rw [← pow_add, Nat.add_sub_cancel' hmb]
    have hleft : 1 ≤ 2 ^ (64 - mb) := Nat.one_le_pow _ _ (by decide)
    simp only [pow_zero, mul_one] at hless ⊢
    obtain ⟨x, hx⟩ := Nat.exists_eq_add_of_le hpos
    obtain ⟨y, hy⟩ := Nat.exists_eq_add_of_le hleft
    have hprod : x + y + 1 ≤ (1 + x) * (1 + y) := by
      calc x + y + 1 ≤ x + y + 1 + x * y := Nat.le_add_right ..
        _ = (1 + x) * (1 + y) := by ring
    rw [← hx, ← hy, hsum] at hprod
    omega
  | succ e =>
    have hall : ∀ mb < 62, ∀ e < 18, 1 < mb → (2 ^ mb - 1) * 10 ^ (e + 1) < 2 ^ 64 →
        2 ^ mb * 10 ^ (e + 1) + 2 ^ (64 - mb) ≤ 2 ^ 64 := by decide +kernel
    have hfits := hall mb (by have := hexp (by omega); omega) e (by omega) hone hmask
    have hsub : (2 ^ mb - 1) * 10 ^ (e + 1) + 10 ^ (e + 1) = 2 ^ mb * 10 ^ (e + 1) := by
      rw [← Nat.succ_mul, Nat.succ_eq_add_one, Nat.sub_add_cancel hpos]
    omega

theorem toNat_maskOf {minBits : ℕ} (h : minBits ≤ 64) : (maskOf minBits).toNat = 2 ^ minBits - 1 := by
  have hall : ∀ k ≤ 64, (maskOf k).toNat = 2 ^ k - 1 := by decide
  exact hall minBits h

theorem sub_clz64 (x : UInt64) : 64 - clz64 x = x.toNat.size := by
  have hsize : x.toNat.size ≤ 64 := Nat.size_le.mpr x.toNat_lt
  unfold clz64
  omega

/-- The bits that are used leave room for the minimum. -/
theorem clampBits_spec (minValue : UInt64) {minBits : ℕ} (h : minBits ≤ 64) :
    clampBits minValue minBits ≤ 64 ∧
      (minValue.toNat ≠ 0 → clampBits minValue minBits + minValue.toNat.size ≤ 64) := by
  have hsize : minValue.toNat.size ≤ 64 := Nat.size_le.mpr minValue.toNat_lt
  unfold clampBits
  constructor
  · split <;> omega
  · intro hne
    have hmax : maxBits minValue = 64 - minValue.toNat.size := by
      rw [maxBits, if_pos (by rintro rfl; exact hne rfl), clz64]
    rw [hmax]
    split <;> omega

/-- The mantissa has the bits of the value, or more that were asked for. -/
theorem mantissaOf_cases (v : UInt64) (minBits : ℕ) :
    (v.toNat ≠ 0 ∧ mantissaOf v minBits = v.toNat.size) ∨ (v.toNat = 0 ∧ mantissaOf v minBits = 1) ∨
      (1 < minBits ∧ v.toNat < 2 ^ minBits ∧ mantissaOf v minBits = minBits) := by
  have hzero : v ≠ 0 ↔ v.toNat ≠ 0 := by
    rw [ne_eq, ne_eq, ← UInt64.toNat_inj]
    rfl
  unfold mantissaOf
  simp only [sub_clz64, hzero]
  by_cases hv : v.toNat ≠ 0
  · rw [if_pos hv]
    split
    · next hmore =>
      have hpos : 0 < v.toNat.size := Nat.size_pos.mpr (Nat.pos_of_ne_zero hv)
      exact .inr (.inr ⟨by omega, Nat.size_le.mp hmore.le, rfl⟩)
    · exact .inl ⟨hv, rfl⟩
  · rw [if_neg hv]
    obtain hv := not_not.mp hv
    split
    · next hmore =>
      refine .inr (.inr ⟨hmore, ?_, rfl⟩)
      rw [hv]
      exact Nat.pos_of_neZero _
    · exact .inr (.inl ⟨hv, rfl⟩)

theorem mantissaOf_ne_zero (v : UInt64) (minBits : ℕ) : mantissaOf v minBits ≠ 0 := by
  rcases mantissaOf_cases v minBits with ⟨hv, hm⟩ | ⟨-, hm⟩ | ⟨hone, -, hm⟩
  · rw [hm]
    exact (Nat.size_pos.mpr (Nat.pos_of_ne_zero hv)).ne'
  · omega
  · omega

theorem splits_rangeParams {minValue value : UInt64} {exp minBits : ℕ} (hle : minValue ≤ value)
    (hmax : minValue ≠ 0xFFFFFFFFFFFFFFFF) (hbig : value > 0x7FFFFFFFFFFFFFFF → minValue = 0)
    (hexp : exp ≤ 18) (hbits : minBits ≤ 64) :
    (rangeParams minValue value exp minBits).Splits minValue value := by
  obtain ⟨hmb, hroom⟩ := clampBits_spec minValue hbits
  unfold rangeParams
  generalize clampBits minValue minBits = mb at hmb hroom ⊢
  obtain ⟨e, he, hcount, hdigits, hmask⟩ :=
    maskDigits_spec (clampExp mb value exp) (value - minValue) (maskOf mb) 0
  rw [toNat_maskOf hmb] at hmask
  simp only
  generalize maskDigits (clampExp mb value exp) (value - minValue) (maskOf mb) 0 = masked at hcount hdigits
  obtain ⟨v, e'⟩ := masked
  obtain rfl : e = e' := by simpa using hcount.symm
  have hlarge : value > 0x7FFFFFFFFFFFFFFF ↔ 2 ^ 63 ≤ value.toNat := by
    rw [gt_iff_lt, UInt64.lt_iff_toNat_lt]
    exact Nat.lt_iff_add_one_le
  have he18 : e ≤ 18 := by
    unfold clampExp at he
    split at he <;> omega
  have hsmall : 0 < e → mb ≤ 61 ∧ ¬ 2 ^ 63 ≤ value.toNat := by
    intro hpos
    unfold clampExp at he
    split at he
    · omega
    · next hnot =>
      obtain ⟨hfew, hvalue⟩ := not_or.mp hnot
      exact ⟨by omega, fun h => hvalue (hlarge.mpr h)⟩
  have hab : minValue.toNat ≤ value.toNat := UInt64.le_iff_toNat_le.mp hle
  have hb := value.toNat_lt
  have hv : v.toNat = (value.toNat - minValue.toNat) / 10 ^ e := by
    rw [← UInt64.toNat_sub_of_le _ _ hle]
    exact hdigits
  have hless : v.toNat * 10 ^ e ≤ value.toNat - minValue.toNat := hv ▸ Nat.div_mul_le_self ..
  have hten : 10 ^ e ≤ 10 ^ 18 := Nat.pow_le_pow_right (by decide) he18
  have htimes : (timesTen e v).toNat = v.toNat * 10 ^ e := toNat_timesTen (by omega)
  have hscale : (timesTen e 1).toNat = 10 ^ e := by
    rw [toNat_timesTen (by simp; omega)]
    simp
  have hrest : (value - timesTen e v).toNat = value.toNat - v.toNat * 10 ^ e := by
    rw [UInt64.toNat_sub_of_le _ _ (UInt64.le_iff_toNat_le.mpr (by omega)), htimes]
  have hlimit : minValue.toNat < 2 ^ 64 - 1 := by
    have hlt := minValue.toNat_lt
    have hne : minValue.toNat ≠ 2 ^ 64 - 1 := fun h => hmax (UInt64.toNat_inj.mp h)
    omega
  have hnone : 2 ^ 63 ≤ value.toNat → minValue.toNat = 0 ∧ e = 0 := fun h => by
    refine ⟨by rw [hbig (hlarge.mpr h)]; rfl, ?_⟩
    by_contra hne
    exact (hsmall (Nat.pos_of_ne_zero hne)).2 h
  have hmantissa : v.toNat < 2 ^ mantissaOf v mb ∧ mantissaOf v mb ≤ 64 ∧
      (2 ^ mantissaOf v mb - 1) * 10 ^ e + (value.toNat - v.toNat * 10 ^ e) < 2 ^ 64 := by
    rcases mantissaOf_cases v mb with ⟨hne, hm⟩ | ⟨hzero, hm⟩ | ⟨hone, hlt, hm⟩
    · rw [hm]
      exact ⟨Nat.lt_size_self _, Nat.size_le.mpr v.toNat_lt, range_fits_of_size hab hb hnone hv hne⟩
    · rw [hm, hzero]
      exact ⟨by decide, by decide, range_fits_of_zero hab he18 hlimit hnone (hzero ▸ hv)⟩
    · rw [hm]
      exact ⟨hlt, hmb, range_fits_of_minBits hab hv he18 hmb hroom (fun h => (hsmall h).1) hone hmask⟩
  obtain ⟨hlt, hle64, hfits⟩ := hmantissa
  exact {
    value_eq := by
      show v.toNat * (timesTen e 1).toNat + (value - timesTen e v).toNat = value.toNat
      rw [hscale, hrest]
      omega
    scale_eq := hscale
    exp_le := he18
    minValue_le := by
      show minValue.toNat ≤ (value - timesTen e v).toNat
      rw [hrest]
      omega
    v_lt := hlt
    range_lt := by
      show (2 ^ mantissaOf v mb - 1) * (timesTen e 1).toNat + (value - timesTen e v).toNat < 2 ^ 64
      rwa [hscale, hrest]
    mantissa_le := hle64
    exp_of_exact := fun h => absurd h (mantissaOf_ne_zero v mb) }

/-! ## The rings -/

/-- The sizes of the rings, as the verifier computes them from the mantissa. -/
def ringSizes (mantissa : ℕ) : List ℕ :=
  if mantissa ≠ 0 then
    List.replicate (mantissa / 2) 4 ++ if mantissa % 2 = 1 then [2] else []
  else [1]

theorem map_ringSize {mantissa : ℕ} (h : mantissa ≠ 0) :
    (List.range ((mantissa + 1) / 2)).map (ringSize mantissa ((mantissa + 1) / 2)) =
      ringSizes mantissa := by
  rw [ringSizes, if_pos h]
  obtain ⟨half, rfl | rfl⟩ := Nat.even_or_odd' mantissa
  · -- an even number of bits has full rings
    have hrings : (2 * half + 1) / 2 = half := by omega
    have hsize : ∀ i ∈ List.range half, ringSize (2 * half) half i = 4 := fun i _ =>
      if_pos (.inr (by omega))
    rw [hrings, List.map_congr_left hsize, List.map_const', List.length_range,
      if_neg (by omega), List.append_nil]
    congr 1
    omega
  · have hrings : (2 * half + 1 + 1) / 2 = half + 1 := by omega
    have hsize : ∀ i ∈ List.range half, ringSize (2 * half + 1) (half + 1) i = 4 := fun i hi =>
      if_pos (.inl (by have := List.mem_range.mp hi; omega))
    have hlast : ringSize (2 * half + 1) (half + 1) half = 2 := if_neg (by omega)
    rw [hrings, List.range_succ, List.map_append, List.map_congr_left hsize, List.map_const',
      List.length_range, if_pos (by omega), List.map_singleton, hlast]
    congr 2
    omega

/-- A word is made of its digits in base four. -/
theorem sum_digits (v r : ℕ) : ((List.range r).map fun i => v / 4 ^ i % 4 * 4 ^ i).sum = v % 4 ^ r := by
  induction r with
  | zero => simp [Nat.mod_one]
  | succ r ih =>
    rw [List.range_succ, List.map_append, List.sum_append, ih, List.map_singleton, List.sum_singleton,
      pow_succ, Nat.mod_mul]
    ring

theorem toNat_digit (v : UInt64) {i : ℕ} (hi : i < 32) :
    digitAt v i = v.toNat / 4 ^ i % 4 := by
  unfold digitAt
  have hpow : (4 : ℕ) ^ i = 2 ^ (i * 2) := by rw [Nat.mul_comm, pow_mul, show (2 : ℕ) ^ 2 = 4 from rfl]
  have hshift : (UInt64.ofNat (i * 2)).toNat % 64 = i * 2 := by
    rw [UInt64.toNat_ofNat']
    omega
  rw [UInt64.toNat_and, UInt64.toNat_shiftRight, hshift, Nat.shiftRight_eq_div_pow, hpow]
  exact Nat.and_two_pow_sub_one_eq_mod _ 2

/-- The rings are those of the mantissa, with the digits of the value. -/
structure Params.Rings (p : Params) : Prop where
  rsizes_eq : p.rsizes = ringSizes p.mantissa
  secidx_eq : ∀ i < p.rings, p.secidx i = digitAt p.v i
  secidx_lt : ∀ i (h : i < p.rsizes.length), p.secidx i < p.rsizes[i]
  sum_eq : ((List.range p.rings).map fun i => p.secidx i * 4 ^ i).sum = p.v.toNat

theorem rings_exactParams (value : UInt64) : (exactParams value).Rings where
  rsizes_eq := rfl
  secidx_eq := by
    intro i hi
    obtain rfl : i = 0 := Nat.lt_one_iff.mp hi
    show 0 = digitAt 0 0
    decide
  secidx_lt := by simp [exactParams]
  sum_eq := rfl

theorem rings_maskedParams {value v : UInt64} {exp minBits : ℕ} (hlt : v.toNat < 2 ^ mantissaOf v minBits)
    (hle : mantissaOf v minBits ≤ 64) : (maskedParams value v exp minBits).Rings := by
  have hne := mantissaOf_ne_zero v minBits
  generalize hm : mantissaOf v minBits = m at hlt hle hne
  have hrsizes : (maskedParams value v exp minBits).rsizes =
      (List.range ((m + 1) / 2)).map (ringSize m ((m + 1) / 2)) := by
    rw [← hm]
    rfl
  have hlen : (maskedParams value v exp minBits).rsizes.length = (m + 1) / 2 := by
    rw [hrsizes, List.length_map, List.length_range]
  have hdigit : ∀ i < (m + 1) / 2, (maskedParams value v exp minBits).secidx i = v.toNat / 4 ^ i % 4 :=
    fun i hi => toNat_digit v (by omega)
  refine ⟨?_, fun i _ => rfl, fun i hi => ?_, ?_⟩
  · rw [hrsizes, map_ringSize hne, ← hm]
    rfl
  · rw [hlen] at hi
    rw [hdigit i hi]
    simp only [hrsizes, List.getElem_map, List.getElem_range]
    unfold ringSize
    split
    · exact Nat.mod_lt _ (by decide)
    · next hlast =>
      -- the highest digit of an odd number of bits is one bit
      obtain ⟨hge, hodd⟩ := not_or.mp hlast
      have hbits : m = 2 * i + 1 := by omega
      have htop : v.toNat / 4 ^ i < 2 := by
        rw [Nat.div_lt_iff_lt_mul (Nat.pos_of_neZero _)]
        rwa [hbits, pow_succ', pow_mul, show (2 : ℕ) ^ 2 = 4 from rfl] at hlt
      exact lt_of_le_of_lt (Nat.mod_le ..) htop
  · rw [Params.rings, hlen]
    have hcongr : (List.range ((m + 1) / 2)).map
        (fun i => (maskedParams value v exp minBits).secidx i * 4 ^ i) =
          (List.range ((m + 1) / 2)).map fun i => v.toNat / 4 ^ i % 4 * 4 ^ i :=
      List.map_congr_left fun i hi => by rw [hdigit i (List.mem_range.mp hi)]
    have hfits : v.toNat < 4 ^ ((m + 1) / 2) := by
      refine lt_of_lt_of_le hlt ?_
      calc 2 ^ m ≤ 2 ^ (2 * ((m + 1) / 2)) := Nat.pow_le_pow_right (by decide) (by omega)
        _ = 4 ^ ((m + 1) / 2) := by rw [pow_mul, show (2 : ℕ) ^ 2 = 4 from rfl]
    rw [hcongr, sum_digits, Nat.mod_eq_of_lt hfits]
    rfl

/-- What the parameters make of a value: they split it without overflow, and the digits are those of
the rings. -/
theorem proveParams_spec {minValue value : UInt64} {exp : ℤ} {minBits : ℕ} {p : Params}
    (h : proveParams minValue value exp minBits = some p) (hle : minValue ≤ value) (hexp : exp ≤ 18)
    (hbits : minBits ≤ 64) : p.Splits minValue value ∧ p.Rings := by
  have hexact : (exactParams value).Splits minValue value ∧ (exactParams value).Rings := by
    refine ⟨⟨?_, rfl, Nat.zero_le _, UInt64.le_iff_toNat_le.mp hle, Nat.one_pos, ?_, Nat.zero_le _, fun _ => rfl⟩,
      rings_exactParams value⟩
    · show 0 * _ + value.toNat = value.toNat
      omega
    · show (2 ^ 0 - 1) * _ + value.toNat < 2 ^ 64
      have hlt := value.toNat_lt
      omega
  unfold proveParams at h
  by_cases hmax : minValue = 0xFFFFFFFFFFFFFFFF
  · rw [if_pos hmax] at h
    obtain rfl := Option.some.inj h
    exact hexact
  · rw [if_neg hmax] at h
    by_cases hpos : 0 ≤ exp
    · rw [if_pos hpos] at h
      split at h
      · cases h
      · next hguard =>
        obtain rfl := Option.some.inj h
        have hbig : value > 0x7FFFFFFFFFFFFFFF → minValue = 0 := fun hlarge => by
          by_contra hne
          exact hguard (.inl ⟨hne, hlarge⟩)
        have hsplits := splits_rangeParams hle hmax hbig
          (by omega : exp.toNat ≤ 18) hbits
        exact ⟨hsplits, rings_maskedParams hsplits.v_lt hsplits.mantissa_le⟩
    · rw [if_neg hpos] at h
      obtain rfl := Option.some.inj h
      exact hexact

/-! ## The header -/

/-- The bytes that `secp256k1_rangeproof_sign_impl` writes first. -/
def header (p : Params) : Bytes :=
  let ranged := p.rsizes.headD 0 > 1
  [(if ranged then 64 ||| UInt8.ofNat p.exp else 0) ||| (if p.minValue ≠ 0 then 32 else 0)] ++
    (if ranged then [UInt8.ofNat (p.mantissa - 1)] else []) ++
    if p.minValue ≠ 0 then ofNat 8 p.minValue.toNat else []

/-- What `secp256k1_rangeproof_getheader_impl` reads. -/
structure Header where
  offset : ℕ
  exp : ℤ
  mantissa : ℕ
  scale : UInt64
  minValue : UInt64
  maxValue : UInt64
deriving DecidableEq

/-- The loop over the exponent: the largest digits and the scale. -/
def scaleRange : ℕ → UInt64 → UInt64 → Option (UInt64 × UInt64)
  | 0, maxValue, scale => some (maxValue, scale)
  | left + 1, maxValue, scale =>
    if maxValue > 0xFFFFFFFFFFFFFFFF / 10 then none else scaleRange left (maxValue * 10) (scale * 10)

/-- The first two bytes: the offset behind them, the exponent, the mantissa and the largest digits. -/
def readRange (proof : Bytes) : Option (ℕ × ℤ × ℕ × UInt64) :=
  let first := proof.getD 0 0
  if first &&& 64 ≠ 0 then
    let exp := (first &&& 31).toNat
    if exp > 18 then none
    else
      let mantissa := (proof.getD 1 0).toNat + 1
      if mantissa > 64 then none
      else some (2, exp, mantissa, 0xFFFFFFFFFFFFFFFF >>> UInt64.ofNat (64 - mantissa))
  else some (1, -1, 0, 0)

/-- `secp256k1_rangeproof_getheader_impl`. -/
def getHeader (proof : Bytes) : Option Header := do
  if proof.length < 65 ∨ proof.getD 0 0 &&& 128 ≠ 0 then none
  else
    let (offset, exp, mantissa, maxValue) ← readRange proof
    let (maxValue, scale) ← scaleRange exp.toNat maxValue 1
    let hasMin := proof.getD 0 0 &&& 32 ≠ 0
    if hasMin ∧ proof.length - offset < 8 then none
    else
      let minValue := if hasMin then UInt64.ofNat (asNat ((proof.drop offset).take 8)) else 0
      if maxValue > 0xFFFFFFFFFFFFFFFF - minValue then none
      else some {
        offset := if hasMin then offset + 8 else offset
        exp, mantissa, scale, minValue
        maxValue := maxValue + minValue }

/-! ## Reading the header back -/

theorem ranged_iff {p : Params} (hp : p.Rings) : p.rsizes.headD 0 > 1 ↔ p.mantissa ≠ 0 := by
  rw [hp.rsizes_eq, ringSizes]
  split
  · next hne =>
    cases hhalf : p.mantissa / 2 with
    | zero =>
      have hone : p.mantissa % 2 = 1 := by omega
      simp [hone, hne]
    | succ half => simp [List.replicate_succ, hne]
  · next hzero => simpa using hzero

/-- The first byte of a header: a bit for the range, one for the minimum, and the exponent. -/
def firstByte (ranged hasMin : Bool) (exp : ℕ) : UInt8 :=
  (if ranged then 64 ||| UInt8.ofNat exp else 0) ||| (if hasMin then 32 else 0)

theorem firstByte_spec (ranged hasMin : Bool) {exp : ℕ} (h : exp ≤ 18) :
    firstByte ranged hasMin exp &&& 128 = 0 ∧ (firstByte ranged hasMin exp &&& 64 ≠ 0 ↔ ranged = true) ∧
      (firstByte ranged hasMin exp &&& 32 ≠ 0 ↔ hasMin = true) ∧
      (ranged = true → (firstByte ranged hasMin exp &&& 31).toNat = exp) := by
  have hall : ∀ ranged hasMin : Bool, ∀ exp < 19, firstByte ranged hasMin exp &&& 128 = 0 ∧
      (firstByte ranged hasMin exp &&& 64 ≠ 0 ↔ ranged = true) ∧
      (firstByte ranged hasMin exp &&& 32 ≠ 0 ↔ hasMin = true) ∧
      (ranged = true → (firstByte ranged hasMin exp &&& 31).toNat = exp) := by decide +kernel
  exact hall ranged hasMin exp (by omega)

theorem header_eq {p : Params} (hp : p.Rings) : header p =
    [firstByte (decide (p.mantissa ≠ 0)) (decide (p.minValue ≠ 0)) p.exp] ++
      (if p.mantissa ≠ 0 then [UInt8.ofNat (p.mantissa - 1)] else []) ++
      if p.minValue ≠ 0 then ofNat 8 p.minValue.toNat else [] := by
  have hranged := ranged_iff hp
  simp only [header, firstByte, hranged, decide_eq_true_eq]

/-- The largest digits stay below the limit as long as their product does. -/
theorem scaleRange_eq {k : ℕ} {maxValue scale : UInt64} (h : maxValue.toNat * 10 ^ k < 2 ^ 64) :
    scaleRange k maxValue scale = some (timesTen k maxValue, timesTen k scale) := by
  induction k generalizing maxValue scale with
  | zero => rfl
  | succ k ih =>
    have hpos : 1 ≤ 10 ^ k := Nat.one_le_pow _ _ (by decide)
    rw [pow_succ', ← mul_assoc] at h
    have hlt : maxValue.toNat * 10 < 2 ^ 64 := lt_of_le_of_lt (Nat.le_mul_of_pos_right _ hpos) h
    have hroom : ¬ maxValue > 0xFFFFFFFFFFFFFFFF / 10 := by
      rw [gt_iff_lt, UInt64.lt_iff_toNat_lt, UInt64.toNat_div]
      have hlimit : (0xFFFFFFFFFFFFFFFF : UInt64).toNat / (10 : UInt64).toNat = 1844674407370955161 := rfl
      omega
    rw [scaleRange, if_neg hroom, ih (by rwa [toNat_mul_ten hlt]), timesTen, timesTen]

variable {p : Params} {minValue value : UInt64}

theorem getD_header_zero (hp : p.Rings) (rest : Bytes) : (header p ++ rest).getD 0 0 =
    firstByte (decide (p.mantissa ≠ 0)) (decide (p.minValue ≠ 0)) p.exp := by
  rw [header_eq hp]
  rfl

theorem getD_header_one (hp : p.Rings) (hm : p.mantissa ≠ 0) (rest : Bytes) :
    (header p ++ rest).getD 1 0 = UInt8.ofNat (p.mantissa - 1) := by
  rw [header_eq hp, if_pos hm]
  rfl

theorem length_header (hp : p.Rings) : (header p).length =
    (if p.mantissa ≠ 0 then 2 else 1) + if p.minValue ≠ 0 then 8 else 0 := by
  rw [header_eq hp]
  by_cases hm : p.mantissa ≠ 0 <;> by_cases hmin : p.minValue ≠ 0 <;> simp [hm, hmin]

theorem drop_header (hp : p.Rings) (hmin : p.minValue ≠ 0) (rest : Bytes) :
    ((header p ++ rest).drop (if p.mantissa ≠ 0 then 2 else 1)).take 8 = ofNat 8 p.minValue.toNat := by
  rw [header_eq hp, if_pos hmin]
  have htake : (ofNat 8 p.minValue.toNat ++ rest).take 8 = ofNat 8 p.minValue.toNat :=
    List.take_left' (length_ofNat 8 _)
  by_cases hm : p.mantissa ≠ 0
  · rw [if_pos hm, if_pos hm]
    exact htake
  · rw [if_neg hm, if_neg hm]
    exact htake

theorem readRange_header (hs : p.Splits minValue value) (hp : p.Rings) (rest : Bytes) :
    readRange (header p ++ rest) = some (if p.mantissa ≠ 0 then 2 else 1,
      if p.mantissa ≠ 0 then (p.exp : ℤ) else -1, p.mantissa, maskOf p.mantissa) := by
  obtain ⟨-, hranged, -, hexp⟩ :=
    firstByte_spec (decide (p.mantissa ≠ 0)) (decide (p.minValue ≠ 0)) hs.exp_le
  rw [readRange, getD_header_zero hp]
  by_cases hm : p.mantissa ≠ 0
  · have hbyte : (UInt8.ofNat (p.mantissa - 1)).toNat + 1 = p.mantissa := by
      have hle := hs.mantissa_le
      rw [UInt8.toNat_ofNat']
      omega
    have hfits : ¬ p.exp > 18 := Nat.not_lt.mpr hs.exp_le
    have hbits : ¬ p.mantissa > 64 := Nat.not_lt.mpr hs.mantissa_le
    simp only [if_pos (hranged.mpr (decide_eq_true hm)), hexp (decide_eq_true hm), if_neg hfits,
      getD_header_one hp hm, hbyte, if_neg hbits, if_pos hm]
    rw [maskOf, if_pos hm]
  · rw [if_neg fun h => hm (of_decide_eq_true (hranged.mp h)), if_neg hm, if_neg hm, not_not.mp hm]
    rfl

/-- What a reader of the header knows of the parameters. -/
def headerOf (p : Params) : Header where
  offset := (header p).length
  exp := if p.mantissa ≠ 0 then p.exp else -1
  mantissa := p.mantissa
  scale := p.scale
  minValue := p.minValue
  maxValue := timesTen p.exp (maskOf p.mantissa) + p.minValue

theorem toNat_exp_headerOf (hs : p.Splits minValue value) : (headerOf p).exp.toNat = p.exp := by
  show (if p.mantissa ≠ 0 then (p.exp : ℤ) else -1).toNat = p.exp
  split
  · rfl
  · next hm => exact (hs.exp_of_exact (not_not.mp hm)).symm

theorem toNat_largest (hs : p.Splits minValue value) :
    (maskOf p.mantissa).toNat * 10 ^ p.exp < 2 ^ 64 ∧
      (timesTen p.exp (maskOf p.mantissa)).toNat = (2 ^ p.mantissa - 1) * p.scale.toNat := by
  have hmask : (maskOf p.mantissa).toNat = 2 ^ p.mantissa - 1 := toNat_maskOf hs.mantissa_le
  have hrange := hs.range_lt
  have hmax : (maskOf p.mantissa).toNat * 10 ^ p.exp < 2 ^ 64 := by
    rw [hmask, ← hs.scale_eq]
    omega
  exact ⟨hmax, by rw [toNat_timesTen hmax, hmask, hs.scale_eq]⟩

/-- The range of the header is that of all values with as many digits. -/
theorem toNat_maxValue_headerOf (hs : p.Splits minValue value) : (headerOf p).maxValue.toNat =
    (2 ^ p.mantissa - 1) * p.scale.toNat + p.minValue.toNat := by
  have hrange := hs.range_lt
  show (timesTen p.exp (maskOf p.mantissa) + p.minValue).toNat = _
  rw [UInt64.toNat_add, (toNat_largest hs).2, Nat.mod_eq_of_lt hrange]

/-- The header that was written is read back. -/
theorem getHeader_append (hs : p.Splits minValue value) (hp : p.Rings) {rest : Bytes}
    (hlen : 65 ≤ (header p ++ rest).length) : getHeader (header p ++ rest) = some (headerOf p) := by
  obtain ⟨hhigh, -, hmin, -⟩ :=
    firstByte_spec (decide (p.mantissa ≠ 0)) (decide (p.minValue ≠ 0)) hs.exp_le
  obtain ⟨hmax, hdigits⟩ := toNat_largest hs
  have hexp := toNat_exp_headerOf hs
  have hrange := hs.range_lt
  have hten : 10 ^ p.exp ≤ 10 ^ 18 := Nat.pow_le_pow_right (by decide) hs.exp_le
  have hone : timesTen p.exp 1 = p.scale := by
    rw [← UInt64.toNat_inj, toNat_timesTen (by simp; omega), hs.scale_eq]
    simp
  have hvalid : ¬ ((header p ++ rest).length < 65 ∨ (header p ++ rest).getD 0 0 &&& 128 ≠ 0) := by
    rw [getD_header_zero hp, hhigh]
    simp only [ne_eq, not_true, or_false]
    omega
  have hread : (if (header p ++ rest).getD 0 0 &&& 32 ≠ 0 then UInt64.ofNat (asNat
      (((header p ++ rest).drop (if p.mantissa ≠ 0 then 2 else 1)).take 8)) else 0) = p.minValue := by
    simp only [getD_header_zero hp, hmin, decide_eq_true_eq]
    split
    · next hne =>
      rw [drop_header hp hne, asNat_ofNat p.minValue.toNat_lt]
      exact UInt64.ofNat_toNat
    · next hzero => exact (not_not.mp hzero).symm
  have hroom : ¬ ((header p ++ rest).getD 0 0 &&& 32 ≠ 0 ∧
      (header p ++ rest).length - (if p.mantissa ≠ 0 then 2 else 1) < 8) := by
    rintro ⟨-, hshort⟩
    split at hshort <;> omega
  have hlimit : (0xFFFFFFFFFFFFFFFF - p.minValue).toNat = 2 ^ 64 - 1 - p.minValue.toNat := by
    have hlt := p.minValue.toNat_lt
    rw [UInt64.toNat_sub_of_le _ _ (UInt64.le_iff_toNat_le.mpr (by simp; omega))]
    rfl
  have hfits : ¬ timesTen p.exp (maskOf p.mantissa) > 0xFFFFFFFFFFFFFFFF - p.minValue := by
    rw [gt_iff_lt, UInt64.lt_iff_toNat_lt, hlimit, hdigits]
    omega
  have hoffset : (if (header p ++ rest).getD 0 0 &&& 32 ≠ 0 then (if p.mantissa ≠ 0 then 2 else 1) + 8
      else if p.mantissa ≠ 0 then 2 else 1) = (header p).length := by
    simp only [getD_header_zero hp, hmin, decide_eq_true_eq, length_header hp]
    split <;> rfl
  have hexp' : (if p.mantissa ≠ 0 then (p.exp : ℤ) else -1).toNat = p.exp := hexp
  rw [getHeader, if_neg hvalid, readRange_header hs hp]
  simp only [Option.bind_eq_bind, Option.bind_some]
  rw [hexp', scaleRange_eq hmax]
  simp only [Option.bind_some]
  rw [if_neg hroom, hread, if_neg hfits, hone, hoffset, headerOf]

end Rangeproof

end GrinDotnet
