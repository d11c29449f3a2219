import GrinDotnet.Core.Layout

/-!
# Streams that end too early

A stream that ends in the middle of a value is read as if it went on with zeroes. Zeroes make lengths
and counts smaller, so a cut makes no reader raise, with one exception: a cut inside the time of a
block from before 1970, whose sign survives and whose low bytes are lost.

Results:
1. `Payload.deserialize_error_iff`: the streams from which no value is read.
2. `Block.timestamp_cut`: what a cut makes of a time.
3. `Payload.truncated_raises_iff`: the cuts that are noticed.
-/

namespace GrinDotnet

open BigEndian Outcome ZeroFilled LayoutLemmas

/-- A value that is sent over the wire. -/
inductive Payload
  | transaction (tx : Transaction)
  | block (b : Block)
  | kernel (k : TxKernel)
  | output (o : Output)
deriving DecidableEq

namespace Payload

/-- `Ser.Ser_vec`. -/
def serVec (env : Env) : Payload → Except Exn Bytes
  | .transaction tx => .ok (tx.serVec env)
  | .block b => b.serVec env
  | .kernel k => .ok k.write
  | .output o => .ok (o.write .full)

/-- `Ser.Deserialize` into the type of a value. -/
def deserialize : Payload → Bytes → Except Exn Payload
  | .transaction _, source => do
    let tx ← Transaction.deserialize source
    return .transaction tx
  | .block _, source => do
    let b ← Block.deserialize source
    return .block b
  | .kernel _, source => do
    let p ← TxKernel.read source
    return .kernel p.1
  | .output _, source => do
    let p ← Output.read source
    return .output p.1

/-- The lengths, counts and times in a stream are ones the runtime can represent. -/
def Readable : Payload → Bytes → Prop
  | .transaction _, s => Transaction.Readable s
  | .block _, s => Block.Readable s
  | .kernel _, s => TxKernel.sigLength s ≤ maxByteArrayLength
  | .output _, _ => True

/-- The value fits into the runtime's arrays and has parts of the sizes they are written in. -/
def Writable : Payload → Prop
  | .transaction tx => tx.Writable
  | .block b => b.Writable
  | .kernel k => k.excessSig.length ≤ maxByteArrayLength
  | .output _ => True

/-- The stream ends inside the eight bytes of a block's time, and what is left of them is a time before
the runtime's first date. -/
def CutTimestamp : Payload → Bytes → Prop
  | .block _, s => 42 < s.length ∧ s.length < 50 ∧ Block.timestampAt s < minUnixTime
  | _, _ => False

/-- No value is read exactly from the streams that are not readable. -/
theorem deserialize_error_iff (x : Payload) (s : Bytes) :
    (∃ e, x.deserialize s = .error e) ↔ ¬ x.Readable s := by
  have hiff : ∀ {α : Type} {y : Except Exn α} {R : Prop}, (R → ∃ a, y = .ok a) →
      (¬ R → ∃ e, y = .error e) → ((∃ e, y = .error e) ↔ ¬ R) := by
    intro α y R hok herror
    refine ⟨?_, herror⟩
    rintro ⟨e, he⟩ hR
    obtain ⟨a, ha⟩ := hok hR
    cases he.symm.trans ha
  refine hiff (fun h => ?_) fun h => ?_
  · cases x with
    | transaction tx =>
      obtain ⟨tx', rest, hread, -⟩ := Transaction.read_of_readable h
      exact ⟨.transaction tx', by rw [deserialize, Transaction.deserialize, hread]; rfl⟩
    | block b =>
      obtain ⟨b', rest, hread, -⟩ := Block.read_of_readable h
      exact ⟨.block b', by rw [deserialize, Block.deserialize, hread]; rfl⟩
    | kernel k =>
      obtain ⟨k', rest, hread⟩ := TxKernel.read_of_readable h
      exact ⟨.kernel k', by rw [deserialize, hread]; rfl⟩
    | output o =>
      obtain ⟨o', rest, hread⟩ := Output.exists_read s
      exact ⟨.output o', by rw [deserialize, hread]; rfl⟩
  · cases x with
    | transaction tx =>
      obtain ⟨e, he⟩ := Transaction.read_of_not_readable h
      exact ⟨e, by rw [deserialize, Transaction.deserialize, he]; rfl⟩
    | block b =>
      obtain ⟨e, he⟩ := Block.read_of_not_readable h
      exact ⟨e, by rw [deserialize, Block.deserialize, he]; rfl⟩
    | kernel k =>
      obtain ⟨e, he⟩ := TxKernel.read_of_not_readable h
      exact ⟨e, by rw [deserialize, he]; rfl⟩
    | output o => exact absurd trivial h

end Payload

/-! ## Cutting a time short -/

namespace Block

theorem toInt_timestampAt (s : Bytes) :
    (timestampAt s).toInt =
      if numberAt s 42 8 < 2 ^ 63 then (numberAt s 42 8 : ℤ) else (numberAt s 42 8 : ℤ) - 2 ^ 64 := by
  have h := Word64.toInt_toInt64 (UInt64.ofNat (numberAt s 42 8))
  rwa [toNat_numberAt] at h

/-- A cut leaves a time as it is, makes it the year 1970, or makes it an earlier one of its sign. -/
theorem timestamp_cut {p s : Bytes} (hp : p <+: s)
    (hs : minUnixTime ≤ timestampAt s ∧ timestampAt s ≤ maxUnixTime) :
    (minUnixTime ≤ timestampAt p ∧ timestampAt p ≤ maxUnixTime) ↔
      ¬ (42 < p.length ∧ p.length < 50 ∧ timestampAt p < minUnixTime) := by
  have hmin : minUnixTime.toInt = -62135596800 := by decide
  have hmax : maxUnixTime.toInt = 253402300799 := by decide
  simp only [Int64.le_iff_toInt_le, Int64.lt_iff_toInt_lt, hmin, hmax] at hs ⊢
  rcases Nat.lt_or_ge p.length 50 with hlt | hge
  swap
  · have heq : timestampAt p = timestampAt s := by
      rw [timestampAt, numberAt_cut hp (by omega)]
      rfl
    rw [heq]
    omega
  rcases Nat.lt_or_ge 42 p.length with hin | hout
  swap
  · -- nothing is left of the time
    have hzero := toInt_timestampAt p
    rw [numberAt_eq_zero hout, if_pos (by norm_num)] at hzero
    push_cast at hzero
    omega
  · -- the byte with the sign is left, the others can only become smaller
    have hsign : numberAt p 42 1 = numberAt s 42 1 := numberAt_cut hp (by omega)
    have hp8 : numberAt p 42 8 = numberAt p 42 1 * 256 ^ 7 + numberAt p 43 7 :=
      numberAt_append p 42 1 7
    have hs8 : numberAt s 42 8 = numberAt s 42 1 * 256 ^ 7 + numberAt s 43 7 :=
      numberAt_append s 42 1 7
    have hlow : numberAt p 43 7 ≤ numberAt s 43 7 := numberAt_cut_le hp 43 7
    have hlow' : numberAt s 43 7 < 256 ^ 7 := numberAt_lt s 43 7
    have htop : numberAt p 42 8 < 256 ^ 8 := numberAt_lt p 42 8
    have hps := toInt_timestampAt p
    have hss := toInt_timestampAt s
    rw [hsign] at hp8
    split at hps <;> split at hss <;> omega

end Block

namespace Payload

/-- What is written is readable. -/
theorem readable_serVec {env : Env} {x : Payload} (hx : x.Writable) {bytes : Bytes}
    (hbytes : x.serVec env = .ok bytes) : x.Readable bytes := by
  by_contra hnot
  obtain ⟨e, he⟩ := (deserialize_error_iff x bytes).mpr hnot
  cases x with
  | transaction tx =>
    obtain rfl : tx.serVec env = bytes := Except.ok.inj hbytes
    rw [deserialize, Transaction.deserialize_serVec env hx] at he
    cases he
  | block b =>
    obtain ⟨bytes', hbytes', hread⟩ := Block.deserialize_serVec env hx
    obtain rfl : bytes' = bytes := Except.ok.inj (hbytes'.symm.trans hbytes)
    rw [deserialize, hread] at he
    cases he
  | kernel k =>
    obtain rfl : k.write = bytes := Except.ok.inj hbytes
    have hread := TxKernel.read_write hx []
    rw [List.append_nil] at hread
    rw [deserialize, hread] at he
    cases he
  | output o => exact hnot trivial

/-- A part of what was written is readable unless the cut is inside a time. -/
theorem readable_cut_iff {env : Env} {x : Payload} (hx : x.Writable) {bytes p : Bytes}
    (hbytes : x.serVec env = .ok bytes) (hp : p <+: bytes) :
    ¬ x.Readable p ↔ x.CutTimestamp p := by
  have hs := readable_serVec hx hbytes
  cases x with
  | transaction tx => exact iff_of_false (not_not.mpr (Transaction.readable_cut hp hs)) id
  | block b =>
    have htime := Block.timestamp_cut hp hs.timestamp
    constructor
    · intro hnot
      by_contra hcut
      exact hnot (Block.readable_cut hp hs (htime.mpr hcut))
    · intro hcut hread
      exact htime.mp hread.timestamp hcut
  | kernel k => exact iff_of_false (not_not.mpr (le_trans (numberAt_cut_le hp _ _) hs)) id
  | output o => exact iff_of_false (not_not.mpr trivial) id

/-- Which truncated encodings are refused. A stream is refused for a length, a count or a time in it
that is out of range, and of what a well-formed value was written as only a cut inside the time of a
block from before 1970 makes one. -/
theorem truncated_raises_iff (env : Env) (x : Payload) {bytes p : Bytes}
    (hbytes : x.serVec env = .ok bytes) (hp : p <+: bytes) :
    ((∃ e, x.deserialize p = .error e) ↔ ¬ x.Readable p) ∧
    (x.Writable → ((∃ e, x.deserialize p = .error e) ↔ x.CutTimestamp p)) := by
  refine ⟨deserialize_error_iff x p, fun hx => ?_⟩
  rw [deserialize_error_iff x p]
  exact readable_cut_iff hx hbytes hp

/-- A transaction of two inputs and one output, cut inside its first input. -/
def cutStream : Bytes := (Transaction.pairWire.serVec Pairs.env).take 60

theorem truncated_raises_iff_pairs :
    ((∃ e, (transaction Transaction.pairWire).deserialize cutStream = .error e) ↔
      ¬ (transaction Transaction.pairWire).Readable cutStream) ∧
    ((transaction Transaction.pairWire).Writable →
      ((∃ e, (transaction Transaction.pairWire).deserialize cutStream = .error e) ↔
        (transaction Transaction.pairWire).CutTimestamp cutStream)) :=
  truncated_raises_iff Pairs.env (transaction Transaction.pairWire) rfl (List.take_prefix 60 _)

/-- A truncated transaction is read as a value. -/
theorem truncated_accepted :
    cutStream <+: Transaction.pairWire.serVec Pairs.env ∧
      cutStream ≠ Transaction.pairWire.serVec Pairs.env ∧
      ∃ y, (transaction Transaction.pairWire).deserialize cutStream = .ok y := by
  refine ⟨List.take_prefix 60 _, by decide +kernel, exists_of_isOk ?_⟩
  decide +kernel

-- a block from 1969 that ends behind the first byte of its time is refused
example :
    (do
      let bytes ← ({ Block.pairMined with
        header := { Block.pairMined.header with timestamp := -1 } } : Block).serVec Pairs.env
      Block.deserialize (bytes.take 43)) = .error .argumentOutOfRange := by
  decide +kernel

end Payload

end GrinDotnet
