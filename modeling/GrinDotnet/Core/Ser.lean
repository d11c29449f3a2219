import GrinDotnet.Common.HexUtil
import GrinDotnet.Lib.Outcome
import GrinDotnet.Secp.Native

/-!
# Readers and writers

The binary format: `WriterBase`, `BinReader` over a memory stream, and the helpers of `Ser`. A reader
that runs past the end of its stream reads zeroes: the number of bytes actually read is ignored.

Results:
1. `readU64_writeU64`, `readVec_writeBytes`, `readCommitment_write`: reading undoes writing.
2. `readItems_write`: a sequence of items is read back item by item.
-/

namespace GrinDotnet

open BigEndian Outcome

/-- `SerializationMode`. -/
inductive SerializationMode
  | full
  | hash
deriving DecidableEq, Repr

/-! ## Writing -/

/-- `WriterBase.write_u8`. -/
def writeU8 (n : UInt8) : Bytes := [n]

/-- `WriterBase.write_u16`. -/
def writeU16 (n : UInt16) : Bytes := ofNat 2 n.toNat

/-- `WriterBase.write_u32`. -/
def writeU32 (n : UInt32) : Bytes := ofNat 4 n.toNat

/-- `WriterBase.write_u64`. -/
def writeU64 (n : UInt64) : Bytes := ofNat 8 n.toNat

/-- `WriterBase.write_i64`: the two's complement bytes. -/
def writeI64 (n : Int64) : Bytes := writeU64 n.toUInt64

/-- `WriterBase.write_bytes`: a length prefix of 64 bits and the bytes. -/
def writeBytes (bytes : Bytes) : Bytes := writeU64 (UInt64.ofNat bytes.length) ++ bytes

/-! ## Reading -/

/-- `BinReader`: the bytes its stream has left. -/
abbrev Reader (α : Type) := StateT Bytes (Except Exn) α

/-- The longest byte array the runtime allocates. -/
def maxByteArrayLength : ℕ := 0x7FFFFFC7

/-- The longest array of references the runtime allocates. -/
def maxArrayLength : ℕ := 0x7FEFFFFF

/-- `BinReader.read_fixed_bytes`: what the stream does not have stays zero. -/
def readFixedBytes (length : UInt32) : Reader Bytes := fun source =>
  if maxByteArrayLength < length.toNat then .error .outOfMemory
  else
    -- what `Stream.Read` returns is ignored, so a short source is filled up with zeroes
    .ok (source.take length.toNat ++ List.replicate (length.toNat - source.length) 0,
      source.drop length.toNat)

/-- `ReaderBase.read_u8`. -/
def readU8 : Reader UInt8 := do
  let bs ← readFixedBytes 1
  return bs.headD 0

/-- `ReaderBase.read_u16`. -/
def readU16 : Reader UInt16 := do
  let bs ← readFixedBytes 2
  return UInt16.ofNat (asNat bs)

/-- `ReaderBase.read_u32`. -/
def readU32 : Reader UInt32 := do
  let bs ← readFixedBytes 4
  return UInt32.ofNat (asNat bs)

/-- `ReaderBase.read_u64`. -/
def readU64 : Reader UInt64 := do
  let bs ← readFixedBytes 8
  return UInt64.ofNat (asNat bs)

/-- `ReaderBase.read_i64`: the bytes are taken as two's complement. -/
def readI64 : Reader Int64 := do
  let n ← readU64
  return n.toInt64

/-- `ReaderBase.read_vec`: only 32 bits of the length prefix count. -/
def readVec : Reader Bytes := do
  let len ← readU64
  readFixedBytes len.toUInt32

/-- `ReaderBase.read_limited_vec`. -/
def readLimitedVec (max : UInt32) : Reader Bytes := do
  let len ← readU64
  -- what is longer than `max` stays in the source, for whatever is read next
  readFixedBytes (if len.toUInt32 < max then len.toUInt32 else max)

/-- `Ser.ReadCommitment`. -/
def readCommitment : Reader Commitment := do
  let bytes ← readFixedBytes 33
  return Commitment.fromVec bytes

/-- `Ser.ReadRangeProof`. -/
def readRangeProof : Reader RangeProof := do
  let bytes ← readLimitedVec (UInt32.ofNat maxProofSize)
  return ⟨bytes, bytes.length⟩

/-- The loop of `Read_and_verify_sorted`. -/
def readItems {α : Type} (read : Reader α) : ℕ → Reader (List α)
  | 0 => pure []
  | n + 1 => do
    let item ← read
    let items ← readItems read n
    return item :: items

/-- `Ser.Read_and_verify_sorted`: it does not verify the order. -/
def readAndVerifySorted {α : Type} (read : Reader α) (count : UInt64) : Reader (List α) :=
  fun source =>
    -- the list grows item by item up to a limit: so many items fail at some item, and this check
    -- anticipates that
    if maxArrayLength < count.toNat then .error .outOfMemory
    else readItems read count.toNat source

/-! ## Reading undoes writing -/

namespace SerLemmas

theorem run_bind_of_ok {α β : Type} {x : Reader α} {f : α → Reader β} {s s' : Bytes} {a : α}
    (h : x s = .ok (a, s')) : (x >>= f) s = f a s' := by
  show (x s >>= fun p => f p.1 p.2) = _
  rw [h]
  rfl

theorem run_bind_of_error {α β : Type} {x : Reader α} {f : α → Reader β} {s : Bytes} {e : Exn}
    (h : x s = .error e) : (x >>= f) s = .error e := by
  show (x s >>= fun p => f p.1 p.2) = _
  rw [h]
  rfl

theorem run_pure {α : Type} (a : α) (s : Bytes) : (pure a : Reader α) s = .ok (a, s) := rfl

/-- A reader of enough bytes takes exactly its share. -/
theorem readFixedBytes_append {length : UInt32} {bs : Bytes} (rest : Bytes)
    (hlen : bs.length = length.toNat) (hmax : bs.length ≤ maxByteArrayLength) :
    readFixedBytes length (bs ++ rest) = .ok (bs, rest) := by
  unfold readFixedBytes
  rw [if_neg (by omega), ← hlen]
  simp

theorem readU8_writeU8 (n : UInt8) (rest : Bytes) : readU8 (writeU8 n ++ rest) = .ok (n, rest) := by
  have hmax : (writeU8 n).length ≤ maxByteArrayLength := by
    show 1 ≤ maxByteArrayLength
    decide
  rw [readU8, run_bind_of_ok (readFixedBytes_append rest rfl hmax)]
  rfl

theorem readU16_writeU16 (n : UInt16) (rest : Bytes) :
    readU16 (writeU16 n ++ rest) = .ok (n, rest) := by
  have hlen : (writeU16 n).length = (2 : UInt32).toNat := length_ofNat 2 _
  have hmax : (writeU16 n).length ≤ maxByteArrayLength := by rw [hlen]; decide
  have hval : asNat (writeU16 n) = n.toNat :=
    asNat_ofNat (lt_of_lt_of_le n.toNat_lt (by norm_num))
  rw [readU16, run_bind_of_ok (readFixedBytes_append rest hlen hmax), run_pure, hval,
    UInt16.ofNat_toNat]

theorem readU32_writeU32 (n : UInt32) (rest : Bytes) :
    readU32 (writeU32 n ++ rest) = .ok (n, rest) := by
  have hlen : (writeU32 n).length = (4 : UInt32).toNat := length_ofNat 4 _
  have hmax : (writeU32 n).length ≤ maxByteArrayLength := by rw [hlen]; decide
  have hval : asNat (writeU32 n) = n.toNat :=
    asNat_ofNat (lt_of_lt_of_le n.toNat_lt (by norm_num))
  rw [readU32, run_bind_of_ok (readFixedBytes_append rest hlen hmax), run_pure, hval,
    UInt32.ofNat_toNat]

theorem asNat_writeU64 (n : UInt64) : asNat (writeU64 n) = n.toNat :=
  asNat_ofNat (lt_of_lt_of_le n.toNat_lt (by norm_num))

theorem readU64_writeU64 (n : UInt64) (rest : Bytes) :
    readU64 (writeU64 n ++ rest) = .ok (n, rest) := by
  have hlen : (writeU64 n).length = (8 : UInt32).toNat := length_ofNat 8 _
  have hmax : (writeU64 n).length ≤ maxByteArrayLength := by rw [hlen]; decide
  rw [readU64, run_bind_of_ok (readFixedBytes_append rest hlen hmax), run_pure, asNat_writeU64,
    UInt64.ofNat_toNat]

theorem readI64_writeI64 (n : Int64) (rest : Bytes) :
    readI64 (writeI64 n ++ rest) = .ok (n, rest) := by
  rw [readI64, writeI64, run_bind_of_ok (readU64_writeU64 _ _), run_pure, Int64.toInt64_toUInt64]

/-- The length of an array that exists survives the cast of its prefix. -/
theorem toNat_toUInt32_ofNat {n : ℕ} (h : n ≤ maxByteArrayLength) :
    (UInt64.ofNat n).toUInt32.toNat = n := by
  have hmax : maxByteArrayLength < 2 ^ 32 := by decide
  have h64 : (UInt64.ofNat n).toNat = n := UInt64.toNat_ofNat_of_lt' (by simp [UInt64.size]; omega)
  rw [UInt64.toNat_toUInt32, h64, Nat.mod_eq_of_lt (by omega)]

theorem readVec_writeBytes {bytes : Bytes} (rest : Bytes) (h : bytes.length ≤ maxByteArrayLength) :
    readVec (writeBytes bytes ++ rest) = .ok (bytes, rest) := by
  rw [readVec, writeBytes, List.append_assoc, run_bind_of_ok (readU64_writeU64 _ _)]
  exact readFixedBytes_append rest (toNat_toUInt32_ofNat h).symm h

theorem readCommitment_write (c : Commitment) (rest : Bytes) :
    readCommitment (c.value.1 ++ rest) = .ok (c, rest) := by
  have hlen : c.value.1.length = (33 : UInt32).toNat := c.value.2
  rw [readCommitment, run_bind_of_ok (readFixedBytes_append rest hlen (by rw [hlen]; decide)),
    Commitment.fromVec_value, run_pure]

theorem readRangeProof_write {p : RangeProof} (rest : Bytes) (hlen : p.proof.length ≤ maxProofSize)
    (hplen : p.plen = p.proof.length) :
    readRangeProof (writeBytes p.proof ++ rest) = .ok (p, rest) := by
  have hmax : p.proof.length ≤ maxByteArrayLength := le_trans hlen (by decide)
  have hcap : (UInt32.ofNat maxProofSize).toNat = maxProofSize := by decide
  have hmin : (if (UInt64.ofNat p.proof.length).toUInt32 < UInt32.ofNat maxProofSize then
      (UInt64.ofNat p.proof.length).toUInt32 else UInt32.ofNat maxProofSize).toNat
      = p.proof.length := by
    split
    · exact toNat_toUInt32_ofNat hmax
    · next hle =>
      rw [UInt32.lt_iff_toNat_lt, hcap, toNat_toUInt32_ofNat hmax] at hle
      omega
  have hread : readLimitedVec (UInt32.ofNat maxProofSize) (writeBytes p.proof ++ rest)
      = .ok (p.proof, rest) := by
    rw [readLimitedVec, writeBytes, List.append_assoc, run_bind_of_ok (readU64_writeU64 _ _)]
    exact readFixedBytes_append rest hmin.symm hmax
  rw [readRangeProof, run_bind_of_ok hread, run_pure, ← hplen]

/-- A sequence of items is read back item by item. -/
theorem readItems_write {α : Type} {read : Reader α} {write : α → Bytes} {items : List α}
    (hread : ∀ a ∈ items, ∀ rest, read (write a ++ rest) = .ok (a, rest)) (rest : Bytes) :
    readItems read items.length (items.flatMap write ++ rest) = .ok (items, rest) := by
  induction items with
  | nil => rfl
  | cons a items ih =>
    rw [List.length_cons, readItems, List.flatMap_cons, List.append_assoc,
      run_bind_of_ok (hread a (by simp) _),
      run_bind_of_ok (ih fun b hb => hread b (by simp [hb])), run_pure]

theorem readAndVerifySorted_write {α : Type} {read : Reader α} {write : α → Bytes} {items : List α}
    (hread : ∀ a ∈ items, ∀ rest, read (write a ++ rest) = .ok (a, rest)) (rest : Bytes)
    (hlen : items.length ≤ maxArrayLength) :
    readAndVerifySorted read (UInt64.ofNat items.length) (items.flatMap write ++ rest)
      = .ok (items, rest) := by
  have hmax : maxArrayLength < 2 ^ 64 := by decide
  have htoNat : (UInt64.ofNat items.length).toNat = items.length :=
    UInt64.toNat_ofNat_of_lt' (by simp [UInt64.size]; omega)
  unfold readAndVerifySorted
  rw [htoNat, if_neg (by omega)]
  exact readItems_write hread rest

end SerLemmas

end GrinDotnet
