import Mathlib.Data.List.Basic
import Mathlib.Tactic.IntervalCases
import GrinDotnet.Lib.BigEndian
import GrinDotnet.Common.Errors

/-!
# Hexadecimal strings

`HexUtil`: byte arrays as lower-case hexadecimal strings. Such strings are the keys of every
dictionary and set in the program, so `toHex` has to be injective, and the partial transaction
travels in this form, so `fromHex` has to undo it.
-/

namespace GrinDotnet

open BigEndian

/-- The digit of a number below 16, as the format `x` prints it. -/
def hexDigit (n : ℕ) : Char :=
  ['0', '1', '2', '3', '4', '5', '6', '7', '8', '9', 'a', 'b', 'c', 'd', 'e', 'f'].getD n '0'

/-- The value of a hexadecimal digit of either case. -/
def digitValue (c : Char) : Option ℕ :=
  if '0' ≤ c ∧ c ≤ '9' then some (c.toNat - '0'.toNat)
  else if 'a' ≤ c ∧ c ≤ 'f' then some (c.toNat - 'a'.toNat + 10)
  else if 'A' ≤ c ∧ c ≤ 'F' then some (c.toNat - 'A'.toNat + 10)
  else none

/-- `Convert.ToByte(s, 16)` on a string of two characters. The runtime takes a leading `+` and a
prefix `0x`, refuses a minus sign, and refuses everything that is not a number to its end. -/
def toByte16 (a b : Char) : Except Exn UInt8 :=
  if a = '-' then .error .argument
  else if a = '+' then
    match digitValue b with
    | some y => .ok (UInt8.ofNat y)
    | none => .error .format
  else if a = '0' ∧ (b = 'x' ∨ b = 'X') then .error .format
  else
    match digitValue a, digitValue b with
    | some x, some y => .ok (UInt8.ofNat (16 * x + y))
    | _, _ => .error .format

/-- The loop of `from_hex`, two characters at a time; `Substring` refuses a lone last one. -/
def fromHexChars : List Char → Except Exn Bytes
  | [] => .ok []
  | [_] => .error .argumentOutOfRange
  | a :: b :: rest => do
    let byte ← toByte16 a b
    let bytes ← fromHexChars rest
    return byte :: bytes

/-- `HexUtil.from_hex`. -/
def fromHex (hex : String) : Except Exn Bytes := fromHexChars hex.toList

/-- The two characters the format `x2` prints for a byte. -/
def hexByte (b : UInt8) : List Char := [hexDigit (b.toNat / 16), hexDigit (b.toNat % 16)]

/-- `HexUtil.to_hex`. -/
def toHex (bytes : Bytes) : String := String.ofList (bytes.flatMap hexByte)

namespace HexLemmas

theorem digitValue_hexDigit {n : ℕ} (h : n < 16) : digitValue (hexDigit n) = some n := by
  interval_cases n <;> decide

/-- A printed digit is neither a sign nor the `x` of a prefix. -/
theorem hexDigit_ne {n : ℕ} (h : n < 16) :
    hexDigit n ≠ '-' ∧ hexDigit n ≠ '+' ∧ hexDigit n ≠ 'x' ∧ hexDigit n ≠ 'X' := by
  interval_cases n <;> decide

theorem toByte16_hexByte (b : UInt8) :
    toByte16 (hexDigit (b.toNat / 16)) (hexDigit (b.toNat % 16)) = .ok b := by
  have hb : b.toNat < 256 := b.toNat_lt
  have hhi : b.toNat / 16 < 16 := by omega
  have hlo : b.toNat % 16 < 16 := by omega
  obtain ⟨hminus, hplus, -, -⟩ := hexDigit_ne hhi
  obtain ⟨-, -, hx, hX⟩ := hexDigit_ne hlo
  have hval : 16 * (b.toNat / 16) + b.toNat % 16 = b.toNat := by omega
  simp [toByte16, hminus, hplus, hx, hX, digitValue_hexDigit hhi, digitValue_hexDigit hlo, hval]

theorem fromHexChars_flatMap (bytes : Bytes) :
    fromHexChars (bytes.flatMap hexByte) = .ok bytes := by
  induction bytes with
  | nil => rfl
  | cons b bytes ih =>
    show (do
      let byte ← toByte16 (hexDigit (b.toNat / 16)) (hexDigit (b.toNat % 16))
      let rest ← fromHexChars (bytes.flatMap hexByte)
      return byte :: rest) = .ok (b :: bytes)
    rw [toByte16_hexByte, ih]
    rfl

end HexLemmas

/-- Decoding what was encoded gives the bytes back. -/
theorem fromHex_toHex (bytes : Bytes) : fromHex (toHex bytes) = .ok bytes := by
  rw [fromHex, toHex, String.toList_ofList, HexLemmas.fromHexChars_flatMap]

/-- Hex strings are equal exactly when the bytes are. -/
theorem toHex_injective {as bs : Bytes} (h : toHex as = toHex bs) : as = bs := by
  have ha := fromHex_toHex as
  rw [h, fromHex_toHex] at ha
  exact (Except.ok.inj ha).symm

@[simp] theorem toHex_inj {as bs : Bytes} : toHex as = toHex bs ↔ as = bs :=
  ⟨toHex_injective, fun h => h ▸ rfl⟩

end GrinDotnet
