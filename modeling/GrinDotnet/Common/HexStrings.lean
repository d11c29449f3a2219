import Mathlib.Algebra.Group.Even
import GrinDotnet.Common.HexUtil
import GrinDotnet.Lib.Outcome

/-!
# What is read as hexadecimal

`from_hex` leaves each pair of characters to a parser of numbers, and a number may have a sign. So it
reads a little more than `to_hex` writes in either case. A character that takes two units of the
runtime's strings is no digit, and neither is one of the units, so it is refused in any case.

Results:
1. `exists_fromHexChars_iff`: the strings that are read.
2. `toHex_of_fromHex`: how the bytes of such a string are written again.
3. `hex_inverse`: writing undoes reading except for the signs.
-/

namespace GrinDotnet

open BigEndian Outcome

/-- A hexadecimal digit of either case. -/
def IsHexDigit (c : Char) : Prop :=
  ('0' ≤ c ∧ c ≤ '9') ∨ ('a' ≤ c ∧ c ≤ 'f') ∨ ('A' ≤ c ∧ c ≤ 'F')

/-- Pairs of a digit, or a plus sign, and a digit. -/
inductive HexPairs : List Char → Prop
  | nil : HexPairs []
  | pair {a b : Char} {rest : List Char} :
      (a = '+' ∨ IsHexDigit a) → IsHexDigit b → HexPairs rest → HexPairs (a :: b :: rest)

/-- How a character that was read is written again. -/
def rewritten (c : Char) : Char := if c = '+' then '0' else c.toLower

/-- Decoding raises, or the string is hexadecimal and its bytes are written as it is in lower
case. -/
def ReadsBack (s : String) : Prop :=
  ∀ bytes, fromHex s = .ok bytes →
    Even s.length ∧ (∀ c ∈ s.toList, IsHexDigit c) ∧ toHex bytes = s.toLower

namespace HexLemmas

/-! ## Digits -/

theorem isHexDigit_iff {c : Char} : IsHexDigit c ↔ ∃ d, digitValue c = some d := by
  unfold IsHexDigit digitValue
  split
  · next h => simp [h]
  · next hnum =>
    split
    · next h => simp [h]
    · next hlower =>
      split
      · next h => simp [h]
      · next hupper => simp [hnum, hlower, hupper]

theorem toNat_lt_of_isHexDigit {c : Char} (h : IsHexDigit c) : c.toNat < 128 := by
  have hle : ∀ d : Char, d.toNat < 128 → c ≤ d → c.toNat < 128 := fun d hd hcd =>
    lt_of_le_of_lt (UInt32.le_iff_toNat_le.mp (Char.le_def.mp hcd)) hd
  rcases h with ⟨-, h⟩ | ⟨-, h⟩ | ⟨-, h⟩ <;> exact hle _ (by decide) h

/-- A digit has a value below sixteen, which is written as the digit in lower case. -/
theorem hexDigit_of_digitValue {c : Char} {d : ℕ} (h : digitValue c = some d) :
    d < 16 ∧ hexDigit d = c.toLower := by
  have hall : ∀ n < 128, (digitValue (Char.ofNat n)).all
      (fun d => decide (d < 16 ∧ hexDigit d = (Char.ofNat n).toLower)) = true := by decide +kernel
  have hc := hall c.toNat (toNat_lt_of_isHexDigit (isHexDigit_iff.mpr ⟨d, h⟩))
  rw [Char.ofNat_toNat, h] at hc
  exact of_decide_eq_true hc

/-- No sign is a digit. -/
theorem not_isHexDigit_plus : ¬ IsHexDigit '+' := by
  unfold IsHexDigit
  decide

theorem rewritten_of_isHexDigit {c : Char} (h : IsHexDigit c) : rewritten c = c.toLower := by
  refine if_neg ?_
  rintro rfl
  exact not_isHexDigit_plus h

/-! ## Pairs -/

/-- The number of a pair is that of its digits, of which the first may be missing. -/
theorem toByte16_eq_ok_iff {a b : Char} {byte : UInt8} : toByte16 a b = .ok byte ↔
    ∃ y, digitValue b = some y ∧ ((a = '+' ∧ byte = UInt8.ofNat y) ∨
      ∃ x, digitValue a = some x ∧ byte = UInt8.ofNat (16 * x + y)) := by
  have hminus : digitValue '-' = none := by decide
  have hplus : digitValue '+' = none := by decide
  have hx : digitValue 'x' = none := by decide
  have hX : digitValue 'X' = none := by decide
  unfold toByte16
  split
  · next h => simp [h, hminus]
  split
  · next h =>
    subst h
    cases digitValue b <;> simp [hplus, eq_comm]
  split
  · next h =>
    obtain ⟨rfl, rfl | rfl⟩ := h <;> simp [hx, hX]
  · next h _ =>
    cases digitValue a <;> cases digitValue b <;> simp [h, eq_comm]

theorem exists_toByte16_iff {a b : Char} :
    (∃ byte, toByte16 a b = .ok byte) ↔ (a = '+' ∨ IsHexDigit a) ∧ IsHexDigit b := by
  simp only [toByte16_eq_ok_iff, isHexDigit_iff]
  constructor
  · rintro ⟨byte, y, hy, ⟨ha, -⟩ | ⟨x, hx, -⟩⟩
    · exact ⟨.inl ha, y, hy⟩
    · exact ⟨.inr ⟨x, hx⟩, y, hy⟩
  · rintro ⟨ha | ⟨x, hx⟩, y, hy⟩
    · exact ⟨_, y, hy, .inl ⟨ha, rfl⟩⟩
    · exact ⟨_, y, hy, .inr ⟨x, hx, rfl⟩⟩

/-- A pair is written again as it was, but for case and sign. -/
theorem hexByte_of_toByte16 {a b : Char} {byte : UInt8} (h : toByte16 a b = .ok byte) :
    hexByte byte = [rewritten a, rewritten b] := by
  obtain ⟨y, hy, hcases⟩ := toByte16_eq_ok_iff.mp h
  obtain ⟨hlt, hb⟩ := hexDigit_of_digitValue hy
  rw [rewritten_of_isHexDigit (isHexDigit_iff.mpr ⟨y, hy⟩), ← hb]
  rcases hcases with ⟨rfl, rfl⟩ | ⟨x, hx, rfl⟩
  · have hval : (UInt8.ofNat y).toNat = y := by simp; omega
    rw [hexByte, hval, Nat.div_eq_of_lt hlt, Nat.mod_eq_of_lt hlt]
    rfl
  · obtain ⟨hxlt, ha⟩ := hexDigit_of_digitValue hx
    have hval : (UInt8.ofNat (16 * x + y)).toNat = 16 * x + y := by simp; omega
    have hhi : (16 * x + y) / 16 = x := by omega
    have hlo : (16 * x + y) % 16 = y := by omega
    rw [rewritten_of_isHexDigit (isHexDigit_iff.mpr ⟨x, hx⟩), ← ha, hexByte, hval, hhi, hlo]

/-! ## Strings -/

theorem fromHexChars_cons_eq_ok {a b : Char} {rest : List Char} {bytes : Bytes} :
    fromHexChars (a :: b :: rest) = .ok bytes ↔ ∃ byte, toByte16 a b = .ok byte ∧
      ∃ tail, fromHexChars rest = .ok tail ∧ bytes = byte :: tail := by
  rw [fromHexChars, bind_eq_ok]
  simp only [bind_eq_ok, pure_eq_ok, Except.ok.injEq, eq_comm (b := bytes)]

/-- The strings that are read are the ones made of pairs. -/
theorem exists_fromHexChars_iff {l : List Char} :
    (∃ bytes, fromHexChars l = .ok bytes) ↔ HexPairs l := by
  constructor
  · rintro ⟨bytes, h⟩
    induction l using fromHexChars.induct generalizing bytes with
    | case1 => exact .nil
    | case2 a => cases h
    | case3 a b rest ih =>
      obtain ⟨byte, hbyte, tail, htail, -⟩ := fromHexChars_cons_eq_ok.mp h
      obtain ⟨ha, hb⟩ := exists_toByte16_iff.mp ⟨byte, hbyte⟩
      exact .pair ha hb (ih tail htail)
  · intro h
    induction h with
    | nil => exact ⟨[], rfl⟩
    | pair ha hb _ ih =>
      obtain ⟨byte, hbyte⟩ := exists_toByte16_iff.mpr ⟨ha, hb⟩
      obtain ⟨tail, htail⟩ := ih
      exact ⟨byte :: tail, fromHexChars_cons_eq_ok.mpr ⟨byte, hbyte, tail, htail, rfl⟩⟩

theorem flatMap_hexByte_of_fromHexChars {l : List Char} {bytes : Bytes}
    (h : fromHexChars l = .ok bytes) : bytes.flatMap hexByte = l.map rewritten := by
  induction l using fromHexChars.induct generalizing bytes with
  | case1 =>
    cases h
    rfl
  | case2 a => cases h
  | case3 a b rest ih =>
    obtain ⟨byte, hbyte, tail, htail, rfl⟩ := fromHexChars_cons_eq_ok.mp h
    rw [List.flatMap_cons, hexByte_of_toByte16 hbyte, ih htail]
    rfl

theorem even_length_of_hexPairs {l : List Char} (h : HexPairs l) : Even l.length := by
  induction h with
  | nil => exact Even.zero
  | pair _ _ _ ih => exact ih.add ⟨1, rfl⟩

/-- Pairs without a sign are pairs of digits. -/
theorem isHexDigit_of_hexPairs {l : List Char} (h : HexPairs l) (hplus : '+' ∉ l) :
    ∀ c ∈ l, IsHexDigit c := by
  induction h with
  | nil => simp
  | pair ha hb _ ih =>
    simp only [List.mem_cons, not_or] at hplus
    simp only [List.forall_mem_cons]
    exact ⟨ha.resolve_left fun he => hplus.1 he.symm, hb, ih hplus.2.2⟩

end HexLemmas

open HexLemmas

/-- The bytes of a string that was read are written as the string in lower case, with a zero for
every sign. -/
theorem toHex_of_fromHex {s : String} {bytes : Bytes} (h : fromHex s = .ok bytes) :
    toHex bytes = s.map rewritten := by
  rw [toHex, flatMap_hexByte_of_fromHexChars h, ← String.toList_map, String.ofList_toList]

/-- A string reads back exactly when it is not made of pairs of which one has a sign. -/
theorem readsBack_iff {s : String} : ReadsBack s ↔ ¬ (HexPairs s.toList ∧ '+' ∈ s.toList) := by
  constructor
  · rintro h ⟨hpairs, hplus⟩
    obtain ⟨bytes, hbytes⟩ := exists_fromHexChars_iff.mpr hpairs
    obtain ⟨-, hdigits, -⟩ := h bytes hbytes
    exact not_isHexDigit_plus (hdigits '+' hplus)
  · intro h bytes hbytes
    have hpairs : HexPairs s.toList := exists_fromHexChars_iff.mp ⟨bytes, hbytes⟩
    have hdigits := isHexDigit_of_hexPairs hpairs fun hplus => h ⟨hpairs, hplus⟩
    refine ⟨?_, hdigits, ?_⟩
    · rw [← String.length_toList]
      exact even_length_of_hexPairs hpairs
    · show toHex bytes = s.map Char.toLower
      rw [toHex_of_fromHex hbytes, ← String.toList_inj, String.toList_map, String.toList_map]
      exact List.map_congr_left fun c hc => rewritten_of_isHexDigit (hdigits c hc)

/-- Reading undoes writing, so that hex strings are equal when the bytes are, and writing undoes
reading where no sign was read. -/
theorem hex_inverse (bytes bytes' : Bytes) (s : String) :
    fromHex (toHex bytes) = .ok bytes ∧ (toHex bytes = toHex bytes' ↔ bytes = bytes') ∧
      (ReadsBack s ↔ ¬ (HexPairs s.toList ∧ '+' ∈ s.toList)) :=
  ⟨fromHex_toHex bytes, toHex_inj, readsBack_iff⟩

/-- A plus sign and a digit are read as one byte. -/
theorem sign_read : fromHex "+5" = .ok [5] ∧ ¬ ReadsBack "+5" := by
  have hread : fromHex "+5" = .ok [5] := by decide
  refine ⟨hread, fun h => ?_⟩
  obtain ⟨-, hdigits, -⟩ := h _ hread
  exact not_isHexDigit_plus (hdigits '+' (by decide))

end GrinDotnet
