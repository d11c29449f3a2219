import Mathlib.Data.List.Induction
import Mathlib.Tactic.Ring

/-!
# Big-endian byte strings

Byte strings read as base-256 numbers, most significant byte first. `asNat` reads a string of any
length, `ofNat k` writes exactly `k` bytes; the two are inverse on numbers below `256 ^ k`.
-/

namespace BigEndian

/-- A byte string. -/
abbrev Bytes := List UInt8

/-- A byte string of a fixed size, such as a buffer whose length a format prescribes. -/
abbrev Fixed (k : ℕ) := {bs : Bytes // bs.length = k}

/-- The number a byte string denotes, most significant byte first. -/
def asNat (bs : Bytes) : ℕ := bs.foldl (fun acc b => acc * 256 + b.toNat) 0

/-- The low `k` bytes of a number, most significant byte first. -/
def ofNat : ℕ → ℕ → Bytes
  | 0, _ => []
  | k + 1, n => ofNat k (n / 256) ++ [UInt8.ofNat (n % 256)]

@[simp] theorem asNat_nil : asNat [] = 0 := rfl

@[simp] theorem asNat_concat (bs : Bytes) (b : UInt8) :
    asNat (bs ++ [b]) = asNat bs * 256 + b.toNat := by
  simp [asNat]

/-- A concatenation puts the first string above the second. -/
theorem asNat_append (as bs : Bytes) : asNat (as ++ bs) = asNat as * 256 ^ bs.length + asNat bs := by
  induction bs using List.reverseRecOn with
  | nil => simp
  | append_singleton bs b ih =>
    rw [← List.append_assoc, asNat_concat, ih, asNat_concat, List.length_append,
      List.length_singleton, pow_succ]
    ring

/-- Bytes that are all zero denote zero. -/
theorem asNat_eq_zero {bs : Bytes} (h : ∀ b ∈ bs, b = 0) : asNat bs = 0 := by
  induction bs using List.reverseRecOn with
  | nil => rfl
  | append_singleton bs b ih =>
    rw [asNat_concat, ih fun c hc => h c (by simp [hc]), h b (by simp)]
    rfl

@[simp] theorem length_ofNat (k n : ℕ) : (ofNat k n).length = k := by
  induction k generalizing n with
  | zero => rfl
  | succ k ih => simp [ofNat, ih]

theorem asNat_ofNat_mod (k n : ℕ) : asNat (ofNat k n) = n % 256 ^ k := by
  induction k generalizing n with
  | zero => simp [ofNat, Nat.mod_one]
  | succ k ih =>
    have hbyte : (UInt8.ofNat (n % 256)).toNat = n % 256 := by simp
    rw [ofNat, asNat_concat, ih, hbyte, pow_succ', Nat.mod_mul]
    ring

/-- Writing in enough bytes and reading back is the identity. -/
theorem asNat_ofNat {k n : ℕ} (h : n < 256 ^ k) : asNat (ofNat k n) = n := by
  rw [asNat_ofNat_mod, Nat.mod_eq_of_lt h]

theorem asNat_lt (bs : Bytes) : asNat bs < 256 ^ bs.length := by
  induction bs using List.reverseRecOn with
  | nil => simp
  | append_singleton bs b ih =>
    have hb : b.toNat < 256 := b.toNat_lt
    rw [asNat_concat, List.length_append, List.length_singleton, pow_succ]
    omega

/-- Reading and writing back in the same number of bytes is the identity. -/
theorem ofNat_asNat (bs : Bytes) : ofNat bs.length (asNat bs) = bs := by
  induction bs using List.reverseRecOn with
  | nil => rfl
  | append_singleton bs b ih =>
    have hb : b.toNat < 256 := b.toNat_lt
    have hdiv : (asNat bs * 256 + b.toNat) / 256 = asNat bs := by omega
    have hmod : (asNat bs * 256 + b.toNat) % 256 = b.toNat := by omega
    rw [asNat_concat, List.length_append, List.length_singleton, ofNat, hdiv, hmod, ih]
    simp

/-- A number written in exactly `k` bytes, as a fixed-size buffer. -/
def fixedOfNat (k n : ℕ) : Fixed k := ⟨ofNat k n, length_ofNat k n⟩

/-- The buffer of `k` zero bytes. -/
def zeros (k : ℕ) : Fixed k := ⟨List.replicate k 0, List.length_replicate⟩

end BigEndian
