import Mathlib.Data.List.GetD
import Mathlib.Data.List.Induction
import Mathlib.Tactic.ByContra

/-!
# Flags in bytes

Flags packed into bytes, the first one in the lowest bit of the first byte.

Results:
1. `isSet_pack`: the flags that were packed are read back.
2. `shiftRight_pack`: behind the last flag the bits are clear.
-/

namespace FlagBytes

/-- Set a flag, if it is one. -/
def set (bytes : List UInt8) (i : ℕ) (flag : UInt8) : List UInt8 :=
  bytes.modify (i / 8) (· ||| (flag <<< UInt8.ofNat (i % 8)))

/-- Pack flags into as many bytes. -/
def pack (size : ℕ) (flags : List UInt8) : List UInt8 :=
  flags.zipIdx.foldl (fun bytes (flag, i) => set bytes i flag) (List.replicate size 0)

/-- Whether a flag is set. -/
def isSet (bytes : List UInt8) (i : ℕ) : Bool :=
  decide (bytes.getD (i / 8) 0 &&& (1 <<< UInt8.ofNat (i % 8)) ≠ 0)

@[simp] theorem length_set (bytes : List UInt8) (i : ℕ) (flag : UInt8) :
    (set bytes i flag).length = bytes.length := List.length_modify ..

theorem pack_concat (size : ℕ) (flags : List UInt8) (flag : UInt8) :
    pack size (flags ++ [flag]) = set (pack size flags) flags.length flag := by
  rw [pack, List.zipIdx_append, List.foldl_append]
  simp [pack]

@[simp] theorem length_pack (size : ℕ) (flags : List UInt8) : (pack size flags).length = size := by
  induction flags using List.reverseRecOn with
  | nil => simp [pack]
  | append_singleton flags flag ih => rw [pack_concat, length_set, ih]

/-- A bit of a byte in which a flag was set. -/
theorem and_or_flag (x flag : UInt8) (hflag : flag = 0 ∨ flag = 1) {a b : ℕ} (ha : a < 8) (hb : b < 8) :
    (x ||| (flag <<< UInt8.ofNat a)) &&& (1 <<< UInt8.ofNat b) ≠ 0 ↔
      x &&& (1 <<< UInt8.ofNat b) ≠ 0 ∨ (a = b ∧ flag = 1) := by
  have hall : ∀ a < 8, ∀ b < 8, ((1 : UInt8) <<< UInt8.ofNat a) &&& (1 <<< UInt8.ofNat b) ≠ 0 ↔ a = b := by
    decide
  rcases hflag with rfl | rfl
  · simp
  · have hdistrib : ∀ x y z : UInt8, (x ||| y) &&& z = (x &&& z) ||| (y &&& z) := fun x y z =>
      UInt8.toBitVec_inj.mp (by ext i; simp [Bool.and_or_distrib_right])
    rw [hdistrib, ne_eq, UInt8.or_eq_zero_iff, not_and_or]
    have hsame := hall a ha b hb
    simp only [ne_eq] at hsame ⊢
    rw [hsame]
    simp

/-- Setting a flag changes that one. -/
theorem isSet_set {bytes : List UInt8} {i : ℕ} {flag : UInt8} (hflag : flag = 0 ∨ flag = 1)
    (hi : i < 8 * bytes.length) (j : ℕ) :
    isSet (set bytes i flag) j = (isSet bytes j || decide (i = j ∧ flag = 1)) := by
  unfold isSet set
  rw [← Bool.decide_or, decide_eq_decide]
  by_cases hbyte : i / 8 = j / 8
  · have hlt : j / 8 < bytes.length := by omega
    rw [hbyte, List.getD_eq_getElem _ _ (by simpa using hlt), List.getElem_modify_eq,
      List.getD_eq_getElem _ _ hlt, and_or_flag _ _ hflag (Nat.mod_lt _ (by decide)) (Nat.mod_lt _ (by decide))]
    have hindex : i % 8 = j % 8 ↔ i = j := by omega
    rw [hindex]
  · have hne : i ≠ j := fun h => hbyte (by rw [h])
    have hsame : (bytes.modify (i / 8) (· ||| (flag <<< UInt8.ofNat (i % 8)))).getD (j / 8) 0 =
        bytes.getD (j / 8) 0 := by
      simp [List.getD_eq_getElem?_getD, hbyte]
    rw [hsame]
    simp [hne]

/-- The flags that were packed are read back. -/
theorem isSet_pack {size : ℕ} {flags : List UInt8} (hflags : ∀ f ∈ flags, f = 0 ∨ f = 1)
    (hsize : flags.length ≤ 8 * size) (j : ℕ) : isSet (pack size flags) j = decide (flags.getD j 0 = 1) := by
  induction flags using List.reverseRecOn with
  | nil =>
    simp [isSet, pack]
  | append_singleton flags flag ih =>
    rw [List.length_append, List.length_singleton] at hsize
    rw [pack_concat, isSet_set (hflags flag (by simp)) (by rw [length_pack]; omega),
      ih (fun f hf => hflags f (by simp [hf])) (by omega)]
    rcases Nat.lt_trichotomy j flags.length with hj | rfl | hj
    · rw [List.getD_append _ _ _ _ hj]
      simp [Nat.ne_of_gt hj]
    · simp
    · have hbehind : (flags ++ [flag]).getD j 0 = 0 := List.getD_eq_default _ _ (by simp; omega)
      rw [hbehind, List.getD_eq_default _ _ (Nat.le_of_lt hj)]
      simp [Nat.ne_of_lt hj]

/-- The flags that were packed are read back, whatever follows them. -/
theorem map_isSet_pack {size : ℕ} {flags : List UInt8} (hflags : ∀ f ∈ flags, f = 0 ∨ f = 1)
    (hsize : flags.length ≤ 8 * size) (rest : List UInt8) :
    (List.range flags.length).map (isSet (pack size flags ++ rest)) = flags.map fun f => decide (f = 1) := by
  refine List.ext_getElem (by simp) fun i hi hi' => ?_
  rw [List.length_map] at hi'
  have hbyte : i / 8 < (pack size flags).length := by
    rw [length_pack]
    omega
  rw [List.getElem_map, List.getElem_map, List.getElem_range, isSet, List.getD_append _ _ _ _ hbyte,
    ← List.getD_eq_getElem flags 0 hi']
  exact isSet_pack hflags hsize i

theorem exists_bit_of_shiftRight (x : UInt8) {c : ℕ} (hc : c < 8) (h : x >>> UInt8.ofNat c ≠ 0) :
    ∃ b < 8, c ≤ b ∧ x &&& (1 <<< UInt8.ofNat b) ≠ 0 := by
  have hall : ∀ x < 256, ∀ c < 8, UInt8.ofNat x >>> UInt8.ofNat c ≠ 0 →
      ∃ b < 8, c ≤ b ∧ UInt8.ofNat x &&& (1 <<< UInt8.ofNat b) ≠ 0 := by decide +kernel
  have hx := hall x.toNat x.toNat_lt c hc
  rw [UInt8.ofNat_toNat] at hx
  exact hx h

/-- Behind the last flag the bits are clear. -/
theorem shiftRight_pack {flags : List UInt8} (hflags : ∀ f ∈ flags, f = 0 ∨ f = 1) :
    (pack ((flags.length + 7) / 8) flags).getD (flags.length / 8) 0 >>> UInt8.ofNat (flags.length % 8) = 0 := by
  by_contra h
  obtain ⟨b, hb, hle, hbit⟩ := exists_bit_of_shiftRight _ (Nat.mod_lt _ (by decide)) h
  have hdiv : (8 * (flags.length / 8) + b) / 8 = flags.length / 8 := by omega
  have hmod : (8 * (flags.length / 8) + b) % 8 = b := by omega
  have hset : isSet (pack ((flags.length + 7) / 8) flags) (8 * (flags.length / 8) + b) = true := by
    rw [isSet, hdiv, hmod]
    exact decide_eq_true hbit
  rw [isSet_pack hflags (by omega), List.getD_eq_default _ _ (by omega)] at hset
  exact absurd hset (by decide)

end FlagBytes
