import GrinDotnet.Core.Layout

/-!
# Length prefixes

A length prefix has 64 bits, of which `read_vec` and `read_limited_vec` use 32; the latter cuts the
length to a bound without skipping the rest, and a stream that ends early is completed by zeroes.

Results:
1. `readLimitedVec_stream`: what is read behind any prefix.
2. `Prefixed.honours_iff`: the prefixes a decoder of a length-prefixed field honours.
3. `length_honoured_iff`: the same for the readers and for the decoders of kernels and outputs.
-/

namespace GrinDotnet

open BigEndian Outcome SerLemmas LayoutLemmas ZeroFilled

/-! ## The readers -/

/-- The number of bytes `read_limited_vec` goes for. -/
def limited (max : UInt32) (len : UInt64) : ℕ := min max.toNat (len.toNat % 2 ^ 32)

theorem toNat_limited (max : UInt32) (len : UInt64) :
    (if len.toUInt32 < max then len.toUInt32 else max).toNat = limited max len := by
  rw [limited, ← UInt64.toNat_toUInt32]
  split
  · next hlt => exact (min_eq_right (UInt32.lt_iff_toNat_lt.mp hlt).le).symm
  · next hge => exact (min_eq_left (UInt32.not_lt.mp hge)).symm

/-- Without a bound all 32 bits count. -/
theorem readVec_eq : readVec = readLimitedVec 0xffffffff := by
  have hclamp : ∀ len : UInt32, (if len < 0xffffffff then len else 0xffffffff) = len := by
    intro len
    split
    · rfl
    · next hge =>
      have hlt := len.toNat_lt
      refine UInt32.toNat_inj.mp (le_antisymm (UInt32.not_lt.mp hge) (Nat.le_of_lt_succ hlt))
  simp only [readVec, readLimitedVec, hclamp]

theorem readLimitedVec_stream (max : UInt32) (len : UInt64) (rest : Bytes) :
    readLimitedVec max (writeU64 len ++ rest) =
      if maxByteArrayLength < limited max len then .error .outOfMemory
      else .ok (rest.take (limited max len) ++
        List.replicate (limited max len - rest.length) 0, rest.drop (limited max len)) := by
  rw [readLimitedVec, run_bind_of_ok (readU64_writeU64 _ _), readFixedBytes, toNat_limited]

/-- What `read_limited_vec` goes for is the length of the prefix, and the stream has it. -/
theorem limited_eq_iff {max : UInt32} {len : UInt64} : limited max len = len.toNat ↔
    len.toNat ≤ max.toNat := by
  have hmax := max.toNat_lt
  rw [limited]
  constructor
  · intro h
    exact h ▸ min_le_left _ _
  · intro h
    rw [Nat.mod_eq_of_lt (lt_of_le_of_lt h hmax), min_eq_right h]

/-! ## Decoders of a length-prefixed field -/

/-- A decoder of a head of some size and a field with a length prefix. -/
structure Prefixed {α : Type} (read : Reader α) (field : α → Bytes) (size : ℕ) (max : UInt32) :
    Prop where
  raises : ∀ (head source : Bytes) e, head.length = size → readLimitedVec max source = .error e →
    read (head ++ source) = .error e
  reads : ∀ (head source : Bytes) bytes after, head.length = size →
    readLimitedVec max source = .ok (bytes, after) →
    ∃ a, read (head ++ source) = .ok (a, after) ∧ field a = bytes

/-- The decoder raises, or the field has as many bytes as its prefix says, within a bound, and the
decoder stops right behind them. -/
def Honours {α : Type} (read : Reader α) (field : α → Bytes) (bound : ℕ) (head : Bytes)
    (len : UInt64) (rest : Bytes) : Prop :=
  (∃ e, read (head ++ (writeU64 len ++ rest)) = .error e) ∨
    (len.toNat ≤ bound ∧ len.toNat ≤ rest.length ∧
      ∃ a, read (head ++ (writeU64 len ++ rest)) = .ok (a, rest.drop len.toNat) ∧
        field a = rest.take len.toNat)

/-- There is no array for what is gone for, or the prefix is within the bound and the stream. -/
def Fits (max : UInt32) (len : UInt64) (rest : Bytes) : Prop :=
  maxByteArrayLength < limited max len ∨ (len.toNat ≤ max.toNat ∧ len.toNat ≤ rest.length)

namespace Prefixed

variable {α : Type} {read : Reader α} {field : α → Bytes} {size : ℕ} {max : UInt32}

/-- A decoder honours exactly the prefixes that fit. -/
theorem honours_iff (h : Prefixed read field size max) {bound : ℕ} (hbound : max.toNat ≤ bound)
    {head : Bytes} (hhead : head.length = size) (len : UInt64) (rest : Bytes) :
    Honours read field bound head len rest ↔ Fits max len rest := by
  have hstream := readLimitedVec_stream max len rest
  by_cases hlong : maxByteArrayLength < limited max len
  · rw [if_pos hlong] at hstream
    exact iff_of_true (.inl ⟨_, h.raises _ _ _ hhead hstream⟩) (.inl hlong)
  · rw [if_neg hlong] at hstream
    obtain ⟨a, hread, hfield⟩ := h.reads _ _ _ _ hhead hstream
    constructor
    · rintro (⟨e, he⟩ | ⟨-, hrest, b, hb, htaken⟩)
      · exact nomatch hread.symm.trans he
      · -- the field has the bytes that were gone for, so these are as many as the prefix says
        have hab : a = b := congrArg Prod.fst (Except.ok.inj (hread.symm.trans hb))
        have hlen : (rest.take (limited max len) ++
            List.replicate (limited max len - rest.length) 0).length = len.toNat := by
          rw [← hfield, hab, htaken, List.length_take, min_eq_left hrest]
        rw [List.length_append, List.length_take, List.length_replicate] at hlen
        have heq : limited max len = len.toNat := by omega
        exact .inr ⟨limited_eq_iff.mp heq, hrest⟩
    · rintro (habsurd | ⟨hmax, hrest⟩)
      · exact absurd habsurd hlong
      · rw [limited_eq_iff.mpr hmax, Nat.sub_eq_zero_of_le hrest, List.replicate_zero,
          List.append_nil] at hfield
        rw [limited_eq_iff.mpr hmax] at hread
        exact .inr ⟨le_trans hmax hbound, hrest, a, hread, hfield⟩

end Prefixed

theorem prefixed_readLimitedVec (max : UInt32) : Prefixed (readLimitedVec max) id 0 max where
  raises head source e hhead h := by
    rw [List.eq_nil_of_length_eq_zero hhead]
    exact h
  reads head source bytes after hhead h := by
    rw [List.eq_nil_of_length_eq_zero hhead]
    exact ⟨bytes, h, rfl⟩

theorem prefixed_readVec : Prefixed readVec id 0 0xffffffff :=
  readVec_eq ▸ prefixed_readLimitedVec _

/-- The 50 bytes of a kernel's head are read whatever they are. -/
theorem prefixed_readKernel : Prefixed TxKernel.read (·.excessSig) 50 0xffffffff := by
  have hhead : ∀ head source : Bytes, head.length = 50 → ∃ features fee lockHeight excess,
      TxKernel.read (head ++ source) = (readVec source >>= fun p =>
        .ok (⟨features, fee, lockHeight, excess, p.1⟩, p.2)) := by
    intro head source hlen
    have hdrop : (head ++ source).drop (0 + 1 + 8 + 8 + 33) = source := List.drop_left' hlen
    generalize hs : head ++ source = s at hdrop
    refine ⟨s.getD 0 0, UInt64.ofNat (numberAt s (0 + 1) 8),
      UInt64.ofNat (numberAt s (0 + 1 + 8) 8),
      Commitment.fromVec (bytesAt s (0 + 1 + 8 + 8) 33), ?_⟩
    show TxKernel.read (s.drop 0) = _
    rw [TxKernel.read, run_bind_of_ok (readU8_drop _ 0),
      run_bind_of_ok (readU64_drop _ _), run_bind_of_ok (readU64_drop _ _),
      run_bind_of_ok (readCommitment_drop _ _), hdrop]
    rfl
  constructor
  · intro head source e hlen h
    obtain ⟨features, fee, lockHeight, excess, hread⟩ := hhead head source hlen
    rw [hread, readVec_eq, h]
    rfl
  · intro head source bytes after hlen h
    obtain ⟨features, fee, lockHeight, excess, hread⟩ := hhead head source hlen
    rw [readVec_eq, h] at hread
    exact ⟨_, hread, rfl⟩

/-- The 54 bytes of an output's head are read whatever they are. -/
theorem prefixed_readOutput :
    Prefixed Output.read (·.proof.proof) 54 (UInt32.ofNat maxProofSize) := by
  have hsize : (UInt32.ofNat switchCommitHashSize).toNat = 20 := rfl
  have hhead : ∀ head source : Bytes, head.length = 54 → ∃ features commit hash,
      Output.read (head ++ source) = (readLimitedVec (UInt32.ofNat maxProofSize) source >>= fun p =>
        .ok (⟨features, commit, hash, ⟨p.1, p.1.length⟩⟩, p.2)) := by
    intro head source hlen
    have hdrop : (head ++ source).drop (0 + 1 + 33 + 20) = source := List.drop_left' hlen
    generalize hs : head ++ source = s at hdrop
    refine ⟨s.getD 0 0, Commitment.fromVec (bytesAt s (0 + 1) 33),
      ⟨bytesAt s (0 + 1 + 33) 20⟩, ?_⟩
    show Output.read (s.drop 0) = _
    rw [Output.read, run_bind_of_ok (readU8_drop _ 0), run_bind_of_ok (readCommitment_drop _ _),
      run_bind_of_ok (readFixedBytes_drop _ _ (by decide)), hsize, hdrop]
    cases hread : readLimitedVec (UInt32.ofNat maxProofSize) source with
    | error e =>
      have hproof : readRangeProof source = .error e := by
        rw [readRangeProof, run_bind_of_error hread]
      exact run_bind_of_error hproof
    | ok p =>
      have hproof : readRangeProof source = .ok (⟨p.1, p.1.length⟩, p.2) := by
        rw [readRangeProof, run_bind_of_ok hread, run_pure]
      exact run_bind_of_ok hproof
  constructor
  · intro head source e hlen h
    obtain ⟨features, commit, hash, hread⟩ := hhead head source hlen
    rw [hread, h]
    rfl
  · intro head source bytes after hlen h
    obtain ⟨features, commit, hash, hread⟩ := hhead head source hlen
    rw [h] at hread
    exact ⟨_, hread, rfl⟩

/-- The readers, and the decoders of kernels and outputs behind any head, honour exactly the
prefixes that fit. -/
theorem length_honoured_iff (len : UInt64) (rest : Bytes) :
    (Honours readVec id (2 ^ 64) [] len rest ↔ Fits 0xffffffff len rest) ∧
    (∀ max, Honours (readLimitedVec max) id max.toNat [] len rest ↔ Fits max len rest) ∧
    (∀ head : Fixed 50, Honours TxKernel.read (·.excessSig) (2 ^ 64) head.1 len rest ↔
      Fits 0xffffffff len rest) ∧
    (∀ head : Fixed 54, Honours Output.read (·.proof.proof) maxProofSize head.1 len rest ↔
      Fits (UInt32.ofNat maxProofSize) len rest) := by
  have hword : (0xffffffff : UInt32).toNat ≤ 2 ^ 64 := by decide
  have hproof : (UInt32.ofNat maxProofSize).toNat ≤ maxProofSize := by decide
  refine ⟨prefixed_readVec.honours_iff hword rfl len rest, fun max => ?_, fun head => ?_,
    fun head => ?_⟩
  · exact (prefixed_readLimitedVec max).honours_iff (le_refl _) rfl len rest
  · exact prefixed_readKernel.honours_iff hword head.2 len rest
  · exact prefixed_readOutput.honours_iff hproof head.2 len rest

/-- A prefix of 2^32 is taken for zero, one of two is cut to a bound of one, and one of two on a
stream of a byte makes up another byte. -/
theorem prefixes_not_honoured :
    readVec (writeU64 0x100000000 ++ [1, 2]) = .ok ([], [1, 2]) ∧
      readLimitedVec 1 (writeU64 2 ++ [1, 2]) = .ok ([1], [2]) ∧
      readVec (writeU64 2 ++ [1]) = .ok ([1, 0], []) ∧
      ¬ Honours readVec id (2 ^ 64) [] 0x100000000 [1, 2] ∧
      ¬ Honours (readLimitedVec 1) id 1 [] 2 [1, 2] ∧
      ¬ Honours readVec id (2 ^ 64) [] 2 [1] := by
  refine ⟨rfl, rfl, rfl, ?_, ?_, ?_⟩
  · rintro (⟨e, he⟩ | ⟨-, hrest, -⟩)
    · exact nomatch he
    · exact absurd hrest (by decide)
  · rintro (⟨e, he⟩ | ⟨hbound, -, -⟩)
    · exact nomatch he
    · exact absurd hbound (by decide)
  · rintro (⟨e, he⟩ | ⟨-, hrest, -⟩)
    · exact nomatch he
    · exact absurd hrest (by decide)

end GrinDotnet
