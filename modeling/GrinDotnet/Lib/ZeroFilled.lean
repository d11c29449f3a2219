import Mathlib.Data.List.Basic
import GrinDotnet.Lib.BigEndian

/-!
# Streams that go on with zeroes

The bytes at an offset of a finite stream, where the stream is taken to go on with zeroes after its
end, and what cutting a stream short does to them.

Results:
1. `bytesAt_append`: adjacent pieces.
2. `numberAt_cut`: a number the cut spares is the same.
3. `numberAt_cut_le`: cutting never makes a number greater.
-/

namespace ZeroFilled

open BigEndian

/-- The `n` bytes at the offset `i`. -/
def bytesAt (s : Bytes) (i n : ℕ) : Bytes := (List.range n).map fun j => s.getD (i + j) 0

/-- The number they spell, most significant byte first. -/
def numberAt (s : Bytes) (i n : ℕ) : ℕ := asNat (bytesAt s i n)

@[simp] theorem length_bytesAt (s : Bytes) (i n : ℕ) : (bytesAt s i n).length = n := by
  simp [bytesAt]

theorem bytesAt_append (s : Bytes) (i m n : ℕ) :
    bytesAt s i (m + n) = bytesAt s i m ++ bytesAt s (i + m) n := by
  simp [bytesAt, List.range_add, Nat.add_assoc]

theorem bytesAt_succ (s : Bytes) (i n : ℕ) :
    bytesAt s i (n + 1) = bytesAt s i n ++ [s.getD (i + n) 0] := by
  simp [bytesAt, List.range_succ]

/-- What a stream still has of the bytes, and zeroes for the others. -/
theorem take_drop_append_replicate (s : Bytes) (i n : ℕ) :
    (s.drop i).take n ++ List.replicate (n - (s.drop i).length) 0 = bytesAt s i n := by
  refine List.ext_getElem ?_ fun j hj hj' => ?_
  · rw [length_bytesAt, List.length_append, List.length_take, List.length_replicate]
    omega
  · simp only [bytesAt, List.getElem_map, List.getElem_range, List.getD_eq_getElem?_getD]
    rw [List.getElem_append]
    split
    · next hlt =>
      rw [List.length_take] at hlt
      rw [List.getElem_take, List.getElem_drop, List.getElem?_eq_getElem, Option.getD_some]
    · next hge =>
      rw [List.length_take, List.length_drop] at hge
      rw [length_bytesAt] at hj'
      rw [List.getElem_replicate, List.getElem?_eq_none (by omega), Option.getD_none]

theorem numberAt_append (s : Bytes) (i m n : ℕ) :
    numberAt s i (m + n) = numberAt s i m * 256 ^ n + numberAt s (i + m) n := by
  rw [numberAt, bytesAt_append, asNat_append, length_bytesAt]
  rfl

theorem numberAt_lt (s : Bytes) (i n : ℕ) : numberAt s i n < 256 ^ n := by
  have hlt := asNat_lt (bytesAt s i n)
  rwa [length_bytesAt] at hlt

/-- The low bytes of a number. -/
theorem numberAt_mod (s : Bytes) (i m n : ℕ) :
    numberAt s i (m + n) % 256 ^ n = numberAt s (i + m) n := by
  rw [numberAt_append, Nat.mul_add_mod', Nat.mod_eq_of_lt (numberAt_lt s (i + m) n)]

/-- Writing a number back gives its bytes. -/
theorem ofNat_numberAt (s : Bytes) (i n : ℕ) : ofNat n (numberAt s i n) = bytesAt s i n := by
  have h := ofNat_asNat (bytesAt s i n)
  rwa [length_bytesAt] at h

/-- Bytes behind the end are zero. -/
theorem numberAt_eq_zero {s : Bytes} {i n : ℕ} (hi : s.length ≤ i) : numberAt s i n = 0 := by
  induction n with
  | zero => rfl
  | succ n ih =>
    have hzero : s.getD (i + n) 0 = 0 := by
      rw [List.getD_eq_getElem?_getD, List.getElem?_eq_none (by omega), Option.getD_none]
    rw [numberAt] at ih
    rw [numberAt, bytesAt_succ, asNat_concat, ih, hzero]
    rfl

/-! ## Cutting a stream short -/

section Cut

variable {p s : Bytes} (h : p <+: s)

include h

theorem getD_cut {j : ℕ} (hj : j < p.length) : p.getD j 0 = s.getD j 0 := by
  obtain ⟨rest, rfl⟩ := h
  rw [List.getD_eq_getElem?_getD, List.getD_eq_getElem?_getD, List.getElem?_append_left hj]

/-- Bytes the cut spares are the same. -/
theorem bytesAt_cut {i n : ℕ} (hn : i + n ≤ p.length) : bytesAt p i n = bytesAt s i n := by
  refine List.map_congr_left fun j hj => getD_cut h ?_
  have hj' := List.mem_range.mp hj
  omega

theorem numberAt_cut {i n : ℕ} (hn : i + n ≤ p.length) : numberAt p i n = numberAt s i n := by
  rw [numberAt, bytesAt_cut h hn]
  rfl

/-- Cutting never makes a number greater. -/
theorem numberAt_cut_le (i n : ℕ) : numberAt p i n ≤ numberAt s i n := by
  induction n with
  | zero => exact le_refl _
  | succ n ih =>
    have hbyte : (p.getD (i + n) 0).toNat ≤ (s.getD (i + n) 0).toNat := by
      rcases Nat.lt_or_ge (i + n) p.length with hj | hj
      · rw [getD_cut h hj]
      · rw [List.getD_eq_getElem?_getD, List.getElem?_eq_none hj, Option.getD_none]
        exact Nat.zero_le _
    rw [numberAt, numberAt] at ih
    rw [numberAt, numberAt, bytesAt_succ, bytesAt_succ, asNat_concat, asNat_concat]
    omega

end Cut

end ZeroFilled
