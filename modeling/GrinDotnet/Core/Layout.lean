import GrinDotnet.Core.BlockWire
import GrinDotnet.Lib.ZeroFilled

/-!
# The layout of a stream

Where the parts of transactions, kernels, outputs and blocks lie in a stream, whatever its bytes are.
Reading past the end reads zeroes, so only three things make a reader raise: a length or a count
beyond what an array can hold, and a time beyond the runtime's dates.

Results:
1. `Format.readItems_of_fits`: counted items are read one behind the other.
2. `Transaction.read_of_readable`, `Transaction.read_of_not_readable`: what a transaction is read as,
   and the streams no transaction is read from.
3. `Block.read_of_readable`, `Block.read_of_not_readable`: the same for blocks.
-/

namespace GrinDotnet

open BigEndian Outcome SerLemmas ZeroFilled

namespace LayoutLemmas

theorem readFixedBytes_drop {length : UInt32} (s : Bytes) (i : ℕ)
    (h : length.toNat ≤ maxByteArrayLength) :
    readFixedBytes length (s.drop i) =
      .ok (bytesAt s i length.toNat, s.drop (i + length.toNat)) := by
  rw [readFixedBytes, if_neg (Nat.not_lt.mpr h), take_drop_append_replicate, List.drop_drop]

theorem readU8_drop (s : Bytes) (i : ℕ) : readU8 (s.drop i) = .ok (s.getD i 0, s.drop (i + 1)) := by
  rw [readU8, run_bind_of_ok (readFixedBytes_drop s i (by decide)), run_pure]
  rfl

theorem readU16_drop (s : Bytes) (i : ℕ) :
    readU16 (s.drop i) = .ok (UInt16.ofNat (numberAt s i 2), s.drop (i + 2)) := by
  rw [readU16, run_bind_of_ok (readFixedBytes_drop s i (by decide)), run_pure]
  rfl

theorem readU32_drop (s : Bytes) (i : ℕ) :
    readU32 (s.drop i) = .ok (UInt32.ofNat (numberAt s i 4), s.drop (i + 4)) := by
  rw [readU32, run_bind_of_ok (readFixedBytes_drop s i (by decide)), run_pure]
  rfl

theorem readU64_drop (s : Bytes) (i : ℕ) :
    readU64 (s.drop i) = .ok (UInt64.ofNat (numberAt s i 8), s.drop (i + 8)) := by
  rw [readU64, run_bind_of_ok (readFixedBytes_drop s i (by decide)), run_pure]
  rfl

theorem readI64_drop (s : Bytes) (i : ℕ) :
    readI64 (s.drop i) = .ok ((UInt64.ofNat (numberAt s i 8)).toInt64, s.drop (i + 8)) := by
  rw [readI64, run_bind_of_ok (readU64_drop s i), run_pure]

theorem readHash_drop (s : Bytes) (i : ℕ) :
    readFixedBytes 32 (s.drop i) = .ok (bytesAt s i 32, s.drop (i + 32)) :=
  readFixedBytes_drop s i (by decide)

theorem readCommitment_drop (s : Bytes) (i : ℕ) :
    readCommitment (s.drop i) = .ok (Commitment.fromVec (bytesAt s i 33), s.drop (i + 33)) := by
  rw [readCommitment, run_bind_of_ok (readFixedBytes_drop s i (by decide)), run_pure]
  rfl

theorem toNat_numberAt (s : Bytes) (i : ℕ) : (UInt64.ofNat (numberAt s i 8)).toNat = numberAt s i 8 :=
  UInt64.toNat_ofNat_of_lt' (lt_of_lt_of_le (numberAt_lt s i 8) (by decide))

/-- Only the low four bytes of a length prefix count. -/
theorem toNat_toUInt32_numberAt (s : Bytes) (i : ℕ) :
    (UInt64.ofNat (numberAt s i 8)).toUInt32.toNat = numberAt s (i + 4) 4 := by
  rw [UInt64.toNat_toUInt32, toNat_numberAt]
  exact numberAt_mod s i 4 4

theorem readVec_drop {s : Bytes} {i : ℕ} (h : numberAt s (i + 4) 4 ≤ maxByteArrayLength) :
    readVec (s.drop i) =
      .ok (bytesAt s (i + 8) (numberAt s (i + 4) 4), s.drop (i + 8 + numberAt s (i + 4) 4)) := by
  rw [← toNat_toUInt32_numberAt] at h
  rw [readVec, run_bind_of_ok (readU64_drop s i), readFixedBytes_drop s _ h, toNat_toUInt32_numberAt]

theorem readVec_drop_of_lt {s : Bytes} {i : ℕ} (h : maxByteArrayLength < numberAt s (i + 4) 4) :
    readVec (s.drop i) = .error .outOfMemory := by
  rw [← toNat_toUInt32_numberAt] at h
  rw [readVec, run_bind_of_ok (readU64_drop s i), readFixedBytes, if_pos h]

theorem toNat_min_maxProofSize (len : UInt32) :
    (if len < UInt32.ofNat maxProofSize then len else UInt32.ofNat maxProofSize).toNat
      = min len.toNat maxProofSize := by
  have hcap : (UInt32.ofNat maxProofSize).toNat = maxProofSize := by decide
  split
  · next h =>
    rw [UInt32.lt_iff_toNat_lt, hcap] at h
    omega
  · next h =>
    rw [UInt32.lt_iff_toNat_lt, hcap] at h
    rw [hcap]
    omega

theorem readRangeProof_drop (s : Bytes) (i : ℕ) :
    ∃ proof : RangeProof, readRangeProof (s.drop i) =
      .ok (proof, s.drop (i + 8 + min (numberAt s (i + 4) 4) maxProofSize)) := by
  have hlen := toNat_min_maxProofSize (UInt64.ofNat (numberAt s i 8)).toUInt32
  rw [toNat_toUInt32_numberAt] at hlen
  have hmax : min (numberAt s (i + 4) 4) maxProofSize ≤ maxByteArrayLength :=
    le_trans (min_le_right _ _) (by decide)
  have hread : readLimitedVec (UInt32.ofNat maxProofSize) (s.drop i) =
      .ok (bytesAt s (i + 8) (min (numberAt s (i + 4) 4) maxProofSize),
        s.drop (i + 8 + min (numberAt s (i + 4) 4) maxProofSize)) := by
    rw [readLimitedVec, run_bind_of_ok (readU64_drop s i),
      readFixedBytes_drop s _ (by rw [hlen]; exact hmax), hlen]
  refine ⟨⟨bytesAt s (i + 8) (min (numberAt s (i + 4) 4) maxProofSize),
    (bytesAt s (i + 8) (min (numberAt s (i + 4) 4) maxProofSize)).length⟩, ?_⟩
  rw [readRangeProof, run_bind_of_ok hread, run_pure]

theorem fromVec_bytesAt (s : Bytes) (i : ℕ) :
    (Commitment.fromVec (bytesAt s i 33)).value.1 = bytesAt s i 33 := by
  show (bytesAt s i 33 ++ List.replicate 33 0).take 33 = bytesAt s i 33
  exact List.take_left' (length_bytesAt s i 33)

end LayoutLemmas

open LayoutLemmas

/-! ## Counted items -/

/-- How items of one type lie in a stream: at which offsets one can be read, the bytes its hash covers,
and the offset behind it. What a cut spares stays where it is. -/
structure Format (α : Type) where
  read : Reader α
  write : α → Bytes
  Fits : Bytes → ℕ → Prop
  hashed : Bytes → ℕ → Bytes
  next : Bytes → ℕ → ℕ
  read_of_fits : ∀ {s i}, Fits s i →
    ∃ a, read (s.drop i) = .ok (a, s.drop (next s i)) ∧ write a = hashed s i
  read_of_not_fits : ∀ {s i}, ¬ Fits s i → ∃ e, read (s.drop i) = .error e
  le_next : ∀ s i, i ≤ next s i
  fits_of_length_le : ∀ {s i}, s.length ≤ i → Fits s i
  fits_cut : ∀ {p s i}, p <+: s → Fits s i → Fits p i
  next_cut : ∀ {p s i}, p <+: s → next p i = next s i ∨ p.length ≤ next p i

namespace Format

variable {α : Type} (F : Format α)

/-- The offset of the `k`-th of the items that begin at an offset. -/
def place (s : Bytes) (start k : ℕ) : ℕ := (F.next s)^[k] start

@[simp] theorem place_zero (s : Bytes) (start : ℕ) : F.place s start 0 = start := rfl

theorem place_succ' (s : Bytes) (start k : ℕ) :
    F.place s start (k + 1) = F.next s (F.place s start k) :=
  Function.iterate_succ_apply' (F.next s) k start

theorem le_place (s : Bytes) (start k : ℕ) : start ≤ F.place s start k := by
  induction k with
  | zero => exact le_refl _
  | succ k ih =>
    rw [place_succ']
    exact le_trans ih (F.le_next s _)

/-- Items that fit are read one behind the other. -/
theorem readItems_of_fits (s : Bytes) (n start : ℕ) (h : ∀ k < n, F.Fits s (F.place s start k)) :
    ∃ items, readItems F.read n (s.drop start) = .ok (items, s.drop (F.place s start n)) ∧
      items.map F.write = (List.range n).map fun k => F.hashed s (F.place s start k) := by
  induction n generalizing start with
  | zero => exact ⟨[], rfl, rfl⟩
  | succ n ih =>
    obtain ⟨a, hread, hwrite⟩ := F.read_of_fits (h 0 (Nat.succ_pos n))
    obtain ⟨items, hitems, hmap⟩ := ih (F.next s start) fun k hk =>
      h (k + 1) (Nat.succ_lt_succ hk)
    refine ⟨a :: items, ?_, ?_⟩
    · rw [place_zero] at hread
      rw [readItems, run_bind_of_ok hread, run_bind_of_ok hitems, run_pure]
      rfl
    · rw [List.map_cons, hwrite, hmap, List.range_succ_eq_map, List.map_cons, List.map_map]
      rfl

/-- One item that does not fit stops the reader. -/
theorem readItems_of_not_fits {s : Bytes} {n start k : ℕ} (hk : k < n)
    (h : ¬ F.Fits s (F.place s start k)) :
    ∃ e, readItems F.read n (s.drop start) = .error e := by
  induction n generalizing start k with
  | zero => exact absurd hk (Nat.not_lt_zero k)
  | succ n ih =>
    by_cases hfits : F.Fits s start
    · obtain ⟨a, hread, -⟩ := F.read_of_fits hfits
      -- the first item fits, so it is a later one that does not
      cases k with
      | zero => exact absurd hfits h
      | succ k =>
        obtain ⟨e, he⟩ := ih (Nat.lt_of_succ_lt_succ hk) h
        refine ⟨e, ?_⟩
        rw [readItems, run_bind_of_ok hread]
        exact run_bind_of_error he
    · obtain ⟨e, he⟩ := F.read_of_not_fits hfits
      refine ⟨e, ?_⟩
      rw [readItems]
      exact run_bind_of_error he

/-- A cut leaves an item where it was or leaves its place behind the end. -/
theorem place_cut {p s : Bytes} (h : p <+: s) {start start' : ℕ}
    (hstart : start = start' ∨ p.length ≤ start) (k : ℕ) :
    F.place p start k = F.place s start' k ∨ p.length ≤ F.place p start k := by
  induction k with
  | zero => exact hstart
  | succ k ih =>
    rw [place_succ', place_succ']
    rcases ih with heq | hend
    · rw [heq]
      exact F.next_cut h
    · exact Or.inr (le_trans hend (F.le_next p _))

/-- Items that fit still fit after a cut. -/
theorem fits_place_cut {p s : Bytes} (h : p <+: s) {start start' k : ℕ}
    (hstart : start = start' ∨ p.length ≤ start) (hfits : F.Fits s (F.place s start' k)) :
    F.Fits p (F.place p start k) := by
  rcases F.place_cut h hstart k with heq | hend
  · rw [heq]
    exact F.fits_cut h hfits
  · exact F.fits_of_length_le hend

/-- A count that an array can hold. -/
theorem readAndVerifySorted_eq {s : Bytes} {i count : ℕ} (hcount : count ≤ maxArrayLength) :
    readAndVerifySorted F.read (UInt64.ofNat count) (s.drop i) = readItems F.read count (s.drop i) := by
  have hmax : maxArrayLength < 2 ^ 64 := by decide
  have htoNat : (UInt64.ofNat count).toNat = count :=
    UInt64.toNat_ofNat_of_lt' (lt_of_le_of_lt hcount hmax)
  rw [readAndVerifySorted, htoNat, if_neg (Nat.not_lt.mpr hcount)]

end Format

theorem readAndVerifySorted_of_lt {α : Type} {read : Reader α} {s : Bytes} {i : ℕ} (rest : Bytes)
    (h : maxArrayLength < numberAt s i 8) :
    readAndVerifySorted read (UInt64.ofNat (numberAt s i 8)) rest = .error .outOfMemory := by
  rw [readAndVerifySorted, toNat_numberAt, if_pos h]

/-- An input: 33 bytes. -/
def inputFormat : Format Input where
  read := Input.read
  write := Input.write
  Fits _ _ := True
  hashed s i := bytesAt s i 33
  next _ i := i + 33
  read_of_fits {s i} _ := by
    refine ⟨⟨Commitment.fromVec (bytesAt s i 33)⟩, ?_, fromVec_bytesAt s i⟩
    rw [Input.read, run_bind_of_ok (readCommitment_drop s i), run_pure]
  read_of_not_fits h := absurd trivial h
  le_next _ i := Nat.le_add_right i 33
  fits_of_length_le _ := trivial
  fits_cut _ _ := trivial
  next_cut _ := Or.inl rfl

/-- The offset behind an item with a length prefix is the same after a cut, or the cut is not behind it. -/
theorem next_cut_of_length {p s : Bytes} (h : p <+: s) (i n : ℕ) (f : ℕ → ℕ) :
    i + (n + 4) + f (numberAt p (i + n) 4) = i + (n + 4) + f (numberAt s (i + n) 4) ∨
      p.length ≤ i + (n + 4) + f (numberAt p (i + n) 4) := by
  rcases Nat.lt_or_ge p.length (i + (n + 4)) with hlt | hge
  · exact .inr (hlt.le.trans (Nat.le_add_right _ _))
  · exact .inl (by rw [numberAt_cut h (by omega)])

theorem exists_readOutput (s : Bytes) (i : ℕ) :
    ∃ o : Output, Output.read (s.drop i)
        = .ok (o, s.drop (i + 62 + min (numberAt s (i + 58) 4) maxProofSize)) ∧
      o.write .hash = bytesAt s i 54 := by
  obtain ⟨proof, hproof⟩ := readRangeProof_drop s (i + 1 + 33 + 20)
  have hsize : (UInt32.ofNat switchCommitHashSize).toNat = 20 := rfl
  refine ⟨⟨s.getD i 0, Commitment.fromVec (bytesAt s (i + 1) 33), ⟨bytesAt s (i + 1 + 33) 20⟩,
    proof⟩, ?_, ?_⟩
  · rw [Output.read, run_bind_of_ok (readU8_drop s i), run_bind_of_ok (readCommitment_drop s _),
      run_bind_of_ok (readFixedBytes_drop s _ (by decide)), hsize, run_bind_of_ok hproof, run_pure]
  · have hsplit : bytesAt s i 54 =
        bytesAt s i 1 ++ bytesAt s (i + 1) 33 ++ bytesAt s (i + 1 + 33) 20 := by
      rw [← bytesAt_append, ← bytesAt_append]
    show writeU8 (s.getD i 0) ++ (Commitment.fromVec (bytesAt s (i + 1) 33)).value.1 ++
      bytesAt s (i + 1 + 33) 20 ++ [] = bytesAt s i 54
    rw [fromVec_bytesAt, List.append_nil, hsplit]
    rfl

/-- An output: 54 bytes that its hash covers, a length prefix, and the range proof. -/
def outputFormat : Format Output where
  read := Output.read
  write := Output.write .hash
  Fits _ _ := True
  hashed s i := bytesAt s i 54
  next s i := i + 62 + min (numberAt s (i + 58) 4) maxProofSize
  read_of_fits {s i} _ := exists_readOutput s i
  read_of_not_fits h := absurd trivial h
  le_next _ i := (Nat.le_add_right i 62).trans (Nat.le_add_right _ _)
  fits_of_length_le _ := trivial
  fits_cut _ _ := trivial
  next_cut {_ _ i} h := next_cut_of_length h i 58 fun n => min n maxProofSize

theorem exists_readKernel {s : Bytes} {i : ℕ} (h : numberAt s (i + 54) 4 ≤ maxByteArrayLength) :
    ∃ k : TxKernel, TxKernel.read (s.drop i) = .ok (k, s.drop (i + 58 + numberAt s (i + 54) 4)) ∧
      k.write = bytesAt s i 50 ++ writeBytes (bytesAt s (i + 58) (numberAt s (i + 54) 4)) := by
  have hvec := readVec_drop (i := i + 1 + 8 + 8 + 33) h
  refine ⟨⟨s.getD i 0, UInt64.ofNat (numberAt s (i + 1) 8), UInt64.ofNat (numberAt s (i + 1 + 8) 8),
    Commitment.fromVec (bytesAt s (i + 1 + 8 + 8) 33),
    bytesAt s (i + 58) (numberAt s (i + 54) 4)⟩, ?_, ?_⟩
  · rw [TxKernel.read, run_bind_of_ok (readU8_drop s i), run_bind_of_ok (readU64_drop s _),
      run_bind_of_ok (readU64_drop s _), run_bind_of_ok (readCommitment_drop s _),
      run_bind_of_ok hvec, run_pure]
  · have hsplit : bytesAt s i 50 = bytesAt s i 1 ++ bytesAt s (i + 1) 8 ++
        bytesAt s (i + 1 + 8) 8 ++ bytesAt s (i + 1 + 8 + 8) 33 := by
      rw [← bytesAt_append, ← bytesAt_append, ← bytesAt_append]
    have hfee : ∀ j, writeU64 (UInt64.ofNat (numberAt s j 8)) = bytesAt s j 8 := fun j => by
      rw [writeU64, toNat_numberAt, ofNat_numberAt]
    rw [TxKernel.write, hsplit, fromVec_bytesAt, hfee, hfee]
    rfl

theorem readKernel_of_not_le {s : Bytes} {i : ℕ} (h : ¬ numberAt s (i + 54) 4 ≤ maxByteArrayLength) :
    ∃ e, TxKernel.read (s.drop i) = .error e := by
  have hvec := readVec_drop_of_lt (i := i + 1 + 8 + 8 + 33) (Nat.lt_of_not_le h)
  refine ⟨.outOfMemory, ?_⟩
  rw [TxKernel.read, run_bind_of_ok (readU8_drop s i), run_bind_of_ok (readU64_drop s _),
    run_bind_of_ok (readU64_drop s _), run_bind_of_ok (readCommitment_drop s _)]
  exact run_bind_of_error hvec

theorem length_fits_of_length_le {s : Bytes} {i : ℕ} (h : s.length ≤ i) :
    numberAt s (i + 54) 4 ≤ maxByteArrayLength := by
  rw [numberAt_eq_zero (h.trans (Nat.le_add_right i 54))]
  exact Nat.zero_le _

/-- A kernel: 50 bytes, a length prefix, and the signature. It is read when its length can be that of
an array. -/
def kernelFormat : Format TxKernel where
  read := TxKernel.read
  write := TxKernel.write
  Fits s i := numberAt s (i + 54) 4 ≤ maxByteArrayLength
  hashed s i := bytesAt s i 50 ++ writeBytes (bytesAt s (i + 58) (numberAt s (i + 54) 4))
  next s i := i + 58 + numberAt s (i + 54) 4
  read_of_fits h := exists_readKernel h
  read_of_not_fits h := readKernel_of_not_le h
  le_next _ i := (Nat.le_add_right i 58).trans (Nat.le_add_right _ _)
  fits_of_length_le h := length_fits_of_length_le h
  fits_cut h hfits := le_trans (numberAt_cut_le h _ _) hfits
  next_cut {_ _ i} h := next_cut_of_length h i 54 fun n => n

/-! ## Transactions -/

namespace Transaction

/-- The length of the signature in a stream that is read as a transaction. -/
def sigLength (s : Bytes) : ℕ := numberAt s 20 4

/-- The number of its inputs. -/
def inputCount (s : Bytes) : ℕ := numberAt s (24 + sigLength s) 8

/-- The number of its outputs. -/
def outputCount (s : Bytes) : ℕ := numberAt s (24 + sigLength s + 8) 8

/-- The offset of its `k`-th input. -/
def inputPlace (s : Bytes) (k : ℕ) : ℕ := inputFormat.place s (24 + sigLength s + 16) k

/-- The offset of its `k`-th output. -/
def outputPlace (s : Bytes) (k : ℕ) : ℕ := outputFormat.place s (inputPlace s (inputCount s)) k

/-- The length and the counts are those of arrays. -/
structure Readable (s : Bytes) : Prop where
  excessSig : sigLength s ≤ maxByteArrayLength
  inputs : inputCount s ≤ maxArrayLength
  outputs : outputCount s ≤ maxArrayLength

/-- The inputs and outputs of what is read are those of the stream. -/
theorem read_of_readable {s : Bytes} (h : Readable s) :
    ∃ tx rest, read s = .ok (tx, rest) ∧
      tx.inputs.map Input.write =
        (List.range (inputCount s)).map (fun k => bytesAt s (inputPlace s k) 33) ∧
      tx.outputs.map (Output.write .hash) =
        (List.range (outputCount s)).map fun k => bytesAt s (outputPlace s k) 54 := by
  obtain ⟨inputs, hinputs, hin⟩ :=
    inputFormat.readItems_of_fits s (inputCount s) (24 + sigLength s + 16) fun _ _ => trivial
  obtain ⟨outputs, houtputs, hout⟩ :=
    outputFormat.readItems_of_fits s (outputCount s) (inputPlace s (inputCount s)) fun _ _ => trivial
  have hvec : readVec (s.drop 16) = .ok (bytesAt s 24 (sigLength s), s.drop (24 + sigLength s)) :=
    readVec_drop h.excessSig
  rw [← inputFormat.readAndVerifySorted_eq h.inputs] at hinputs
  rw [← outputFormat.readAndVerifySorted_eq h.outputs] at houtputs
  refine ⟨⟨inputs, outputs, UInt64.ofNat (numberAt s 0 8), UInt64.ofNat (numberAt s 8 8),
    bytesAt s 24 (sigLength s)⟩, s.drop (outputPlace s (outputCount s)), ?_, hin, hout⟩
  show read (s.drop 0) = _
  rw [read, run_bind_of_ok (readU64_drop s 0), run_bind_of_ok (readU64_drop s _),
    run_bind_of_ok hvec, run_bind_of_ok (readU64_drop s _), run_bind_of_ok (readU64_drop s _)]
  exact (run_bind_of_ok hinputs).trans (run_bind_of_ok houtputs)

/-- Everything else is refused. -/
theorem read_of_not_readable {s : Bytes} (h : ¬ Readable s) : ∃ e, read s = .error e := by
  show ∃ e, read (s.drop 0) = .error e
  rw [read, run_bind_of_ok (readU64_drop s 0), run_bind_of_ok (readU64_drop s _)]
  rcases Nat.lt_or_ge maxByteArrayLength (sigLength s) with hsig | hsig
  · exact ⟨_, run_bind_of_error (readVec_drop_of_lt hsig)⟩
  have hvec : readVec (s.drop 16) = .ok (bytesAt s 24 (sigLength s), s.drop (24 + sigLength s)) :=
    readVec_drop hsig
  rw [run_bind_of_ok hvec, run_bind_of_ok (readU64_drop s _), run_bind_of_ok (readU64_drop s _)]
  rcases Nat.lt_or_ge maxArrayLength (inputCount s) with hin | hin
  · exact ⟨_, run_bind_of_error (readAndVerifySorted_of_lt _ hin)⟩
  obtain ⟨inputs, hinputs, -⟩ :=
    inputFormat.readItems_of_fits s (inputCount s) (24 + sigLength s + 16) fun _ _ => trivial
  rw [← inputFormat.readAndVerifySorted_eq hin] at hinputs
  rcases Nat.lt_or_ge maxArrayLength (outputCount s) with hout | hout
  · refine ⟨.outOfMemory, (run_bind_of_ok hinputs).trans ?_⟩
    exact run_bind_of_error (readAndVerifySorted_of_lt _ hout)
  · exact absurd ⟨hsig, hin, hout⟩ h

/-- What is read from a stream is also read from a part of it, though not the same. -/
theorem readable_cut {p s : Bytes} (hp : p <+: s) (h : Readable s) : Readable p := by
  have hsig : sigLength p = sigLength s ∨ p.length ≤ 24 := by
    rcases Nat.lt_or_ge p.length 24 with hlt | hge
    · exact Or.inr hlt.le
    · exact Or.inl (numberAt_cut hp hge)
  refine ⟨le_trans (numberAt_cut_le hp _ _) h.excessSig, ?_, ?_⟩
  · rcases hsig with heq | hend
    · rw [inputCount, heq]
      exact le_trans (numberAt_cut_le hp _ _) h.inputs
    · rw [inputCount, numberAt_eq_zero (by omega)]
      exact Nat.zero_le _
  · rcases hsig with heq | hend
    · rw [outputCount, heq]
      exact le_trans (numberAt_cut_le hp _ _) h.outputs
    · rw [outputCount, numberAt_eq_zero (by omega)]
      exact Nat.zero_le _

end Transaction

/-! ## Kernels and outputs -/

namespace TxKernel

/-- The length of the signature in a stream that is read as a kernel. -/
def sigLength (s : Bytes) : ℕ := numberAt s 54 4

theorem read_of_readable {s : Bytes} (h : sigLength s ≤ maxByteArrayLength) :
    ∃ kernel rest, read s = .ok (kernel, rest) := by
  obtain ⟨kernel, hread, -⟩ := kernelFormat.read_of_fits (s := s) (i := 0) h
  exact ⟨kernel, _, hread⟩

theorem read_of_not_readable {s : Bytes} (h : ¬ sigLength s ≤ maxByteArrayLength) :
    ∃ e, read s = .error e :=
  kernelFormat.read_of_not_fits (s := s) (i := 0) h

end TxKernel

/-- An output is read from any stream. -/
theorem Output.exists_read (s : Bytes) : ∃ output rest, Output.read s = .ok (output, rest) := by
  obtain ⟨output, hread, -⟩ := outputFormat.read_of_fits (s := s) (i := 0) trivial
  exact ⟨output, _, hread⟩

/-! ## Blocks -/

namespace Block

/-- The time in a stream that is read as a block. -/
def timestampAt (s : Bytes) : Int64 := (UInt64.ofNat (numberAt s 42 8)).toInt64

/-- The number of its inputs. -/
def inputCount (s : Bytes) : ℕ := numberAt s 186 8

/-- The number of its outputs. -/
def outputCount (s : Bytes) : ℕ := numberAt s 194 8

/-- The number of its kernels. -/
def kernelCount (s : Bytes) : ℕ := numberAt s 202 8

/-- The offset of its `k`-th input. -/
def inputPlace (s : Bytes) (k : ℕ) : ℕ := inputFormat.place s 210 k

/-- The offset of its `k`-th output. -/
def outputPlace (s : Bytes) (k : ℕ) : ℕ := outputFormat.place s (inputPlace s (inputCount s)) k

/-- The offset of its `k`-th kernel. -/
def kernelPlace (s : Bytes) (k : ℕ) : ℕ := kernelFormat.place s (outputPlace s (outputCount s)) k

/-- The time is a date, and the counts and the lengths are those of arrays. -/
structure Readable (s : Bytes) : Prop where
  timestamp : minUnixTime ≤ timestampAt s ∧ timestampAt s ≤ maxUnixTime
  inputs : inputCount s ≤ maxArrayLength
  outputs : outputCount s ≤ maxArrayLength
  kernels : kernelCount s ≤ maxArrayLength
  excessSig : ∀ k < kernelCount s, kernelFormat.Fits s (kernelPlace s k)

theorem readNonces_drop (s : Bytes) (n i : ℕ) :
    ∃ nonces, readItems readU32 n (s.drop i) = .ok (nonces, s.drop (i + 4 * n)) := by
  induction n generalizing i with
  | zero => exact ⟨[], rfl⟩
  | succ n ih =>
    obtain ⟨nonces, hnonces⟩ := ih (i + 4)
    refine ⟨UInt32.ofNat (numberAt s i 4) :: nonces, ?_⟩
    rw [readItems, run_bind_of_ok (readU32_drop s i), run_bind_of_ok hnonces, run_pure,
      show i + 4 + 4 * n = i + 4 * (n + 1) by omega]

theorem readDifficulty_drop (s : Bytes) (i : ℕ) :
    Difficulty.read (s.drop i) = .ok (⟨UInt64.ofNat (numberAt s i 8)⟩, s.drop (i + 8)) := by
  rw [Difficulty.read, run_bind_of_ok (readU64_drop s i), run_pure]

theorem readProof_drop (s : Bytes) (i : ℕ) :
    Proof.read (s.drop i) = .ok (⟨none, 0⟩, s.drop (i + 16)) := by
  obtain ⟨nonces, hnonces⟩ := readNonces_drop s automatedTestingProofSize.toNat i
  rw [Proof.read, run_bind_of_ok hnonces, run_pure]
  rfl

theorem readHeader_of_timestamp {s : Bytes}
    (h : minUnixTime ≤ timestampAt s ∧ timestampAt s ≤ maxUnixTime) :
    ∃ header, BlockHeader.read s = .ok (header, s.drop 186) := by
  have htime : readI64 (s.drop 42) = .ok (timestampAt s, s.drop 50) := readI64_drop s 42
  refine ⟨{
    version := UInt16.ofNat (numberAt s 0 2)
    height := UInt64.ofNat (numberAt s 2 8)
    previous := bytesAt s 10 32
    timestamp := timestampAt s
    utxoRoot := bytesAt s 50 32
    rangeProofRoot := bytesAt s 82 32
    kernelRoot := bytesAt s 114 32
    nonce := UInt64.ofNat (numberAt s 146 8)
    pow := ⟨none, 0⟩
    difficulty := ⟨UInt64.ofNat (numberAt s 154 8)⟩
    totalDifficulty := ⟨UInt64.ofNat (numberAt s 162 8)⟩ }, ?_⟩
  show BlockHeader.read (s.drop 0) = _
  rw [BlockHeader.read, run_bind_of_ok (readU16_drop s 0), run_bind_of_ok (readU64_drop s _),
    run_bind_of_ok (readHash_drop s _), run_bind_of_ok htime,
    run_bind_of_ok (fromUnixTime_eq h _), run_bind_of_ok (readHash_drop s _),
    run_bind_of_ok (readHash_drop s _), run_bind_of_ok (readHash_drop s _),
    run_bind_of_ok (readU64_drop s _), run_bind_of_ok (readDifficulty_drop s _),
    run_bind_of_ok (readDifficulty_drop s _), run_bind_of_ok (readProof_drop s _), run_pure]

theorem readHeader_of_not_timestamp {s : Bytes}
    (h : ¬ (minUnixTime ≤ timestampAt s ∧ timestampAt s ≤ maxUnixTime)) :
    BlockHeader.read s = .error .argumentOutOfRange := by
  have htime : ∀ rest, (liftM (fromUnixTime (timestampAt s)) : Reader Int64) rest =
      .error .argumentOutOfRange := by
    intro rest
    rw [fromUnixTime, if_neg h]
    rfl
  show BlockHeader.read (s.drop 0) = _
  rw [BlockHeader.read, run_bind_of_ok (readU16_drop s 0), run_bind_of_ok (readU64_drop s _),
    run_bind_of_ok (readHash_drop s _), run_bind_of_ok (readI64_drop s _)]
  exact run_bind_of_error (htime _)

/-- The inputs, outputs and kernels of what is read are those of the stream. -/
theorem read_of_readable {s : Bytes} (h : Readable s) :
    ∃ b rest, read s = .ok (b, rest) ∧
      b.inputs.map Input.write =
        (List.range (inputCount s)).map (fun k => bytesAt s (inputPlace s k) 33) ∧
      b.outputs.map (Output.write .hash) =
        (List.range (outputCount s)).map (fun k => bytesAt s (outputPlace s k) 54) ∧
      b.kernels.map TxKernel.write =
        (List.range (kernelCount s)).map fun k => kernelFormat.hashed s (kernelPlace s k) := by
  obtain ⟨header, hheader⟩ := readHeader_of_timestamp h.timestamp
  obtain ⟨inputs, hinputs, hin⟩ :=
    inputFormat.readItems_of_fits s (inputCount s) 210 fun _ _ => trivial
  obtain ⟨outputs, houtputs, hout⟩ :=
    outputFormat.readItems_of_fits s (outputCount s) (inputPlace s (inputCount s)) fun _ _ => trivial
  obtain ⟨kernels, hkernels, hkern⟩ :=
    kernelFormat.readItems_of_fits s (kernelCount s) (outputPlace s (outputCount s)) h.excessSig
  rw [← inputFormat.readAndVerifySorted_eq h.inputs] at hinputs
  rw [← outputFormat.readAndVerifySorted_eq h.outputs] at houtputs
  rw [← kernelFormat.readAndVerifySorted_eq h.kernels] at hkernels
  refine ⟨⟨header, inputs, outputs, kernels⟩, s.drop (kernelPlace s (kernelCount s)), ?_, hin, hout,
    hkern⟩
  rw [read, run_bind_of_ok hheader, run_bind_of_ok (readU64_drop s 186),
    run_bind_of_ok (readU64_drop s _), run_bind_of_ok (readU64_drop s _)]
  exact (run_bind_of_ok hinputs).trans ((run_bind_of_ok houtputs).trans (run_bind_of_ok hkernels))

/-- Everything else is refused. -/
theorem read_of_not_readable {s : Bytes} (h : ¬ Readable s) : ∃ e, read s = .error e := by
  by_cases htime : minUnixTime ≤ timestampAt s ∧ timestampAt s ≤ maxUnixTime
  swap
  · exact ⟨_, run_bind_of_error (readHeader_of_not_timestamp htime)⟩
  obtain ⟨header, hheader⟩ := readHeader_of_timestamp htime
  rw [read, run_bind_of_ok hheader, run_bind_of_ok (readU64_drop s 186),
    run_bind_of_ok (readU64_drop s _), run_bind_of_ok (readU64_drop s _)]
  rcases Nat.lt_or_ge maxArrayLength (inputCount s) with hin | hin
  · exact ⟨_, run_bind_of_error (readAndVerifySorted_of_lt _ hin)⟩
  obtain ⟨inputs, hinputs, -⟩ :=
    inputFormat.readItems_of_fits s (inputCount s) 210 fun _ _ => trivial
  rw [← inputFormat.readAndVerifySorted_eq hin] at hinputs
  rcases Nat.lt_or_ge maxArrayLength (outputCount s) with hout | hout
  · refine ⟨.outOfMemory, (run_bind_of_ok hinputs).trans ?_⟩
    exact run_bind_of_error (readAndVerifySorted_of_lt _ hout)
  obtain ⟨outputs, houtputs, -⟩ :=
    outputFormat.readItems_of_fits s (outputCount s) (inputPlace s (inputCount s)) fun _ _ => trivial
  rw [← outputFormat.readAndVerifySorted_eq hout] at houtputs
  rcases Nat.lt_or_ge maxArrayLength (kernelCount s) with hkern | hkern
  · refine ⟨.outOfMemory, (run_bind_of_ok hinputs).trans ((run_bind_of_ok houtputs).trans ?_)⟩
    exact run_bind_of_error (readAndVerifySorted_of_lt _ hkern)
  -- nothing is left but a kernel whose signature does not fit
  have hsig : ∃ k < kernelCount s, ¬ kernelFormat.Fits s (kernelPlace s k) := by
    by_contra hall
    refine h ⟨htime, hin, hout, hkern, fun k hk => ?_⟩
    by_contra hk'
    exact hall ⟨k, hk, hk'⟩
  obtain ⟨k, hk, hk'⟩ := hsig
  obtain ⟨e, he⟩ := kernelFormat.readItems_of_not_fits hk hk'
  rw [← kernelFormat.readAndVerifySorted_eq hkern] at he
  refine ⟨e, (run_bind_of_ok hinputs).trans ((run_bind_of_ok houtputs).trans ?_)⟩
  exact run_bind_of_error he

/-- What is read from a stream is also read from a part of it whose time is a date. -/
theorem readable_cut {p s : Bytes} (hp : p <+: s) (h : Readable s)
    (htime : minUnixTime ≤ timestampAt p ∧ timestampAt p ≤ maxUnixTime) : Readable p where
  timestamp := htime
  inputs := le_trans (numberAt_cut_le hp _ _) h.inputs
  outputs := le_trans (numberAt_cut_le hp _ _) h.outputs
  kernels := le_trans (numberAt_cut_le hp _ _) h.kernels
  excessSig k hk := by
    have hk' : k < kernelCount s := lt_of_lt_of_le hk (numberAt_cut_le hp _ _)
    rcases Nat.lt_or_ge p.length 210 with hlt | hge
    · -- the cut is before the first input, so every place is behind the end
      refine kernelFormat.fits_of_length_le (le_trans hlt.le ?_)
      exact le_trans (inputFormat.le_place p 210 _)
        (le_trans (outputFormat.le_place p _ _) (kernelFormat.le_place p _ _))
    · have hinputs : inputCount p = inputCount s := numberAt_cut hp (by omega)
      have houtputs : outputCount p = outputCount s := numberAt_cut hp (by omega)
      have hin := inputFormat.place_cut hp (Or.inl (rfl : 210 = 210)) (inputCount s)
      have hout := outputFormat.place_cut hp hin (outputCount s)
      rw [kernelPlace, outputPlace, inputPlace, hinputs, houtputs]
      exact kernelFormat.fits_place_cut hp hout (h.excessSig k hk')

end Block

end GrinDotnet
