import GrinDotnet.Core.Block
import GrinDotnet.Core.Wire

/-!
# The block on the wire

Headers, proofs of work, kernels and blocks as they are written and read. Every part is read back as
it was written but one: `Proof.Read` reads the nonces of the proof of work into an array of its own
and leaves the proof as the constructor made it, without nonces and of size 0.

Results:
1. `BlockHeader.read_write`: a header is read back but for its proof of work.
2. `Block.deserialize_serVec`: what a serialized block is read back as.
3. `Block.wire_loses_pow`: no block with a proof of work survives the round trip.
-/

namespace GrinDotnet

open BigEndian Outcome SerLemmas StableSort

/-! ## Reading and writing -/

/-- The first second the runtime's dates can hold. -/
def minUnixTime : Int64 := -62135596800

/-- The last second the runtime's dates can hold. -/
def maxUnixTime : Int64 := 253402300799

/-- `DateTimeExtensions.FromUnixTime`. -/
def fromUnixTime (unixTime : Int64) : Except Exn Int64 :=
  if minUnixTime ≤ unixTime ∧ unixTime ≤ maxUnixTime then .ok unixTime
  else .error .argumentOutOfRange

/-- `Proof.Read`: the nonces are read and dropped. -/
def Proof.read : Reader Proof := do
  let _ ← readItems readU32 automatedTestingProofSize.toNat
  return ⟨none, 0⟩

/-- `Difficulty.Read`. -/
def Difficulty.read : Reader Difficulty := do
  let num ← readU64
  return ⟨num⟩

namespace BlockHeader

/-- `BlockHeader.Write`. -/
def write (mode : SerializationMode) (self : BlockHeader) : Except Exn Bytes :=
  match mode with
  | .hash => .ok self.writeForHash
  | .full => do
    let pow ← self.pow.write
    return self.writeForHash ++ pow

/-- `BlockHeader.Read`. -/
def read : Reader BlockHeader := do
  let version ← readU16
  let height ← readU64
  let previous ← readFixedBytes 32
  let unixTime ← readI64
  let timestamp ← (fromUnixTime unixTime : Except Exn Int64)
  let utxoRoot ← readFixedBytes 32
  let rangeProofRoot ← readFixedBytes 32
  let kernelRoot ← readFixedBytes 32
  let nonce ← readU64
  let difficulty ← Difficulty.read
  let totalDifficulty ← Difficulty.read
  let pow ← Proof.read
  return { version, height, previous, timestamp, utxoRoot, rangeProofRoot, kernelRoot, nonce, pow,
           difficulty, totalDifficulty }

end BlockHeader

/-- `TxKernel.Read`. -/
def TxKernel.read : Reader TxKernel := do
  let features ← readU8
  let fee ← readU64
  let lockHeight ← readU64
  let excess ← readCommitment
  let excessSig ← readVec
  return ⟨features, fee, lockHeight, excess, excessSig⟩

namespace Block

/-- `Block.Write`: the hash covers the header alone. -/
def write (env : Env) (mode : SerializationMode) (self : Block) : Except Exn Bytes := do
  let header ← self.header.write mode
  match mode with
  | .hash => return header
  | .full =>
    return header ++ writeU64 (UInt64.ofNat self.inputs.length) ++
      writeU64 (UInt64.ofNat self.outputs.length) ++ writeU64 (UInt64.ofNat self.kernels.length) ++
      (orderByHash env Input.write self.inputs).flatMap Input.write ++
      (orderByHash env (Output.write .hash) self.outputs).flatMap (Output.write .full) ++
      (orderByHash env TxKernel.write self.kernels).flatMap TxKernel.write

/-- `Block.Read`. -/
def read : Reader Block := do
  let header ← BlockHeader.read
  let inputLen ← readU64
  let outputLen ← readU64
  let kernelLen ← readU64
  let inputs ← readAndVerifySorted Input.read inputLen
  let outputs ← readAndVerifySorted Output.read outputLen
  let kernels ← readAndVerifySorted TxKernel.read kernelLen
  return ⟨header, inputs, outputs, kernels⟩

/-- `Ser.Ser_vec` of a block. -/
def serVec (env : Env) (self : Block) : Except Exn Bytes := self.write env .full

/-- `Ser.Deserialize` of a block. -/
def deserialize (source : Bytes) : Except Exn Block := do
  let p ← read source
  return p.1

end Block

/-! ## Well-formed blocks -/

/-- A header of hashes of 32 bytes, a time the runtime's dates hold, and a proof of as many nonces as
`Global.Proofsize` prescribes. -/
structure BlockHeader.Writable (h : BlockHeader) : Prop where
  previous : h.previous.length = 32
  timestamp : minUnixTime ≤ h.timestamp ∧ h.timestamp ≤ maxUnixTime
  utxoRoot : h.utxoRoot.length = 32
  rangeProofRoot : h.rangeProofRoot.length = 32
  kernelRoot : h.kernelRoot.length = 32
  pow : ∃ nonces : List UInt32, nonces.length = automatedTestingProofSize.toNat ∧
    h.pow = ⟨some nonces, automatedTestingProofSize⟩

/-- A block that fits into the runtime's arrays, with parts of the sizes they are written in. -/
structure Block.Writable (b : Block) : Prop where
  header : b.header.Writable
  inputs : b.inputs.length ≤ maxArrayLength
  outputs : b.outputs.length ≤ maxArrayLength
  kernels : b.kernels.length ≤ maxArrayLength
  wellSized : ∀ o ∈ b.outputs, o.WellSized
  excessSig : ∀ k ∈ b.kernels, k.excessSig.length ≤ maxByteArrayLength

/-- A header as the wire gives it back. -/
def BlockHeader.withoutPow (h : BlockHeader) : BlockHeader := { h with pow := ⟨none, 0⟩ }

/-- The block with its parts in the order of their hashes, as they are written. -/
def Block.sorted (env : Env) (b : Block) : Block :=
  { b with
    inputs := orderByHash env Input.write b.inputs
    outputs := orderByHash env (Output.write .hash) b.outputs
    kernels := orderByHash env TxKernel.write b.kernels }

/-! ## The round trip -/

theorem Proof.write_eq {nonces : List UInt32} (h : nonces.length = automatedTestingProofSize.toNat) :
    Proof.write ⟨some nonces, automatedTestingProofSize⟩ = .ok (nonces.flatMap writeU32) := by
  show (if nonces.length < automatedTestingProofSize.toNat then .error .indexOutOfRange
    else .ok ((nonces.take automatedTestingProofSize.toNat).flatMap writeU32) : Except Exn Bytes) = _
  rw [if_neg (by rw [h]; exact lt_irrefl _), ← h, List.take_length]

theorem Proof.read_write {nonces : List UInt32} (h : nonces.length = automatedTestingProofSize.toNat)
    (rest : Bytes) : Proof.read (nonces.flatMap writeU32 ++ rest) = .ok (⟨none, 0⟩, rest) := by
  rw [Proof.read, ← h, run_bind_of_ok (readItems_write (fun n _ => readU32_writeU32 n) rest), run_pure]

theorem Difficulty.read_write (d : Difficulty) (rest : Bytes) :
    Difficulty.read (writeU64 d.num ++ rest) = .ok (d, rest) := by
  rw [Difficulty.read, run_bind_of_ok (readU64_writeU64 _ _), run_pure]

theorem readHash_append {hash : Bytes} (h : hash.length = 32) (rest : Bytes) :
    readFixedBytes 32 (hash ++ rest) = .ok (hash, rest) :=
  readFixedBytes_append rest h (by rw [h]; decide)

theorem fromUnixTime_eq {unixTime : Int64}
    (h : minUnixTime ≤ unixTime ∧ unixTime ≤ maxUnixTime) (s : Bytes) :
    (liftM (fromUnixTime unixTime) : Reader Int64) s = .ok (unixTime, s) := by
  rw [fromUnixTime, if_pos h]
  rfl

/-- A header is read back as it was written but for its proof of work. -/
theorem BlockHeader.read_write {h : BlockHeader} (hh : h.Writable) :
    ∃ bytes, h.write .full = .ok bytes ∧
      ∀ rest, BlockHeader.read (bytes ++ rest) = .ok (h.withoutPow, rest) := by
  obtain ⟨nonces, hsize, hpow⟩ := hh.pow
  refine ⟨h.writeForHash ++ nonces.flatMap writeU32, ?_, fun rest => ?_⟩
  · rw [write, hpow, Proof.write_eq hsize]
    rfl
  · have hwrite : h.writeForHash ++ nonces.flatMap writeU32 ++ rest = writeU16 h.version ++
        (writeU64 h.height ++ (h.previous ++ (writeI64 h.timestamp ++ (h.utxoRoot ++
        (h.rangeProofRoot ++ (h.kernelRoot ++ (writeU64 h.nonce ++ (writeU64 h.difficulty.num ++
        (writeU64 h.totalDifficulty.num ++ (nonces.flatMap writeU32 ++ rest)))))))))) := by
      simp [writeForHash, List.append_assoc]
    rw [hwrite, BlockHeader.read, run_bind_of_ok (readU16_writeU16 _ _),
      run_bind_of_ok (readU64_writeU64 _ _), run_bind_of_ok (readHash_append hh.previous _),
      run_bind_of_ok (readI64_writeI64 _ _), run_bind_of_ok (fromUnixTime_eq hh.timestamp _),
      run_bind_of_ok (readHash_append hh.utxoRoot _),
      run_bind_of_ok (readHash_append hh.rangeProofRoot _),
      run_bind_of_ok (readHash_append hh.kernelRoot _), run_bind_of_ok (readU64_writeU64 _ _),
      run_bind_of_ok (Difficulty.read_write _ _), run_bind_of_ok (Difficulty.read_write _ _),
      run_bind_of_ok (Proof.read_write hsize rest), run_pure]
    rfl

theorem TxKernel.read_write {k : TxKernel} (h : k.excessSig.length ≤ maxByteArrayLength)
    (rest : Bytes) : TxKernel.read (k.write ++ rest) = .ok (k, rest) := by
  have hwrite : k.write ++ rest = writeU8 k.features ++ (writeU64 k.fee ++ (writeU64 k.lockHeight ++
      (k.excess.value.1 ++ (writeBytes k.excessSig ++ rest)))) := by
    simp [TxKernel.write, List.append_assoc]
  rw [hwrite, TxKernel.read, run_bind_of_ok (readU8_writeU8 _ _),
    run_bind_of_ok (readU64_writeU64 _ _), run_bind_of_ok (readU64_writeU64 _ _),
    run_bind_of_ok (readCommitment_write _ _), run_bind_of_ok (readVec_writeBytes _ h), run_pure]

namespace Block

/-- The whole stream is read, and the sorted block comes back without its proof of work. -/
theorem read_serVec (env : Env) {b : Block} (h : b.Writable) :
    ∃ bytes, b.serVec env = .ok bytes ∧
      read bytes = .ok ({ b.sorted env with header := b.header.withoutPow }, []) := by
  obtain ⟨header, hheader, hreadHeader⟩ := BlockHeader.read_write h.header
  have hin : (orderByHash env Input.write b.inputs).length = b.inputs.length :=
    (orderByHash_perm env _ _).length_eq
  have hout : (orderByHash env (Output.write .hash) b.outputs).length = b.outputs.length :=
    (orderByHash_perm env _ _).length_eq
  have hkern : (orderByHash env TxKernel.write b.kernels).length = b.kernels.length :=
    (orderByHash_perm env _ _).length_eq
  have houtputs : ∀ o ∈ orderByHash env (Output.write .hash) b.outputs, ∀ rest,
      Output.read (o.write .full ++ rest) = .ok (o, rest) := fun o ho =>
    Output.read_write (h.wellSized o ((orderByHash_perm env _ _).mem_iff.mp ho))
  have hkernels : ∀ k ∈ orderByHash env TxKernel.write b.kernels, ∀ rest,
      TxKernel.read (k.write ++ rest) = .ok (k, rest) := fun k hk =>
    TxKernel.read_write (h.excessSig k ((orderByHash_perm env _ _).mem_iff.mp hk))
  have hserVec : b.serVec env = .ok (header ++ (writeU64 (UInt64.ofNat b.inputs.length) ++
      (writeU64 (UInt64.ofNat b.outputs.length) ++ (writeU64 (UInt64.ofNat b.kernels.length) ++
      ((orderByHash env Input.write b.inputs).flatMap Input.write ++
      ((orderByHash env (Output.write .hash) b.outputs).flatMap (Output.write .full) ++
      ((orderByHash env TxKernel.write b.kernels).flatMap TxKernel.write ++ []))))))) := by
    rw [serVec, write, hheader, ok_bind]
    simp [List.append_assoc]
  refine ⟨_, hserVec, ?_⟩
  rw [read, run_bind_of_ok (hreadHeader _), run_bind_of_ok (readU64_writeU64 _ _),
    run_bind_of_ok (readU64_writeU64 _ _), run_bind_of_ok (readU64_writeU64 _ _), ← hin,
    run_bind_of_ok (readAndVerifySorted_write (fun i _ => Input.read_write i) _ (hin ▸ h.inputs)),
    ← hout, run_bind_of_ok (readAndVerifySorted_write houtputs _ (hout ▸ h.outputs)),
    ← hkern, run_bind_of_ok (readAndVerifySorted_write hkernels _ (hkern ▸ h.kernels)), run_pure]
  rfl

/-- What a serialized block is read back as. -/
theorem deserialize_serVec (env : Env) {b : Block} (h : b.Writable) :
    ∃ bytes, b.serVec env = .ok bytes ∧
      deserialize bytes = .ok { b.sorted env with header := b.header.withoutPow } := by
  obtain ⟨bytes, hbytes, hread⟩ := read_serVec env h
  refine ⟨bytes, hbytes, ?_⟩
  rw [deserialize, hread]
  rfl

/-- What the round trip of a block is to give back: the header in every field, the parts in the order
of their hashes, and a block that serializes to the same bytes. -/
def RoundTrips (env : Env) (b : Block) : Prop :=
  ∃ bytes b', b.serVec env = .ok bytes ∧ deserialize bytes = .ok b' ∧ b'.header = b.header ∧
    SortedBy (fun x y => env.stringLe x y = true) (hashKey env Input.write) b.inputs b'.inputs ∧
    SortedBy (fun x y => env.stringLe x y = true) (hashKey env (Output.write .hash))
      b.outputs b'.outputs ∧
    SortedBy (fun x y => env.stringLe x y = true) (hashKey env TxKernel.write)
      b.kernels b'.kernels ∧
    b'.serVec env = .ok bytes

theorem withoutPow_ne {h : BlockHeader} (hh : h.Writable) : h.withoutPow ≠ h := by
  obtain ⟨nonces, -, hpow⟩ := hh.pow
  intro heq
  have hlost : (none : Option (List UInt32)) = h.pow.nonces :=
    congrArg (fun x : BlockHeader => x.pow.nonces) heq
  rw [hpow] at hlost
  cases hlost

theorem not_roundTrips (env : Env) {b : Block} (h : b.Writable) : ¬ b.RoundTrips env := by
  rintro ⟨bytes, b', hbytes, hread, hheader, -⟩
  obtain ⟨bytes', hbytes', hread'⟩ := deserialize_serVec env h
  -- the one stream that is written has the one value that is read back
  obtain rfl : bytes' = bytes := Except.ok.inj (hbytes'.symm.trans hbytes)
  obtain rfl : _ = b' := Except.ok.inj (hread'.symm.trans hread)
  exact withoutPow_ne h.header hheader

/-- A well-formed block comes back with its parts sorted and every field of its header but the proof
of work, so it never survives the round trip. -/
theorem wire_loses_pow (env : Env) {b : Block} (h : b.Writable) :
    (∃ bytes, b.serVec env = .ok bytes ∧
      deserialize bytes = .ok { b.sorted env with header := b.header.withoutPow }) ∧
    ¬ b.RoundTrips env :=
  ⟨deserialize_serVec env h, not_roundTrips env h⟩

/-- A block of one input with the proof of work 1, 2, 3, 4. -/
def pairMined : Block where
  header := { BlockHeader.default 0 with pow := ⟨some [1, 2, 3, 4], automatedTestingProofSize⟩ }
  inputs := [⟨⟨Pairs.save 5 3⟩⟩]
  outputs := []
  kernels := [⟨KernelFeatures.coinbaseKernel, 0, 0, ⟨Pairs.save 6 1⟩, [48, 6]⟩]

theorem pairMined_writable : pairMined.Writable where
  header := ⟨rfl, by decide, rfl, rfl, rfl, [1, 2, 3, 4], rfl, rfl⟩
  inputs := by decide
  outputs := by decide
  kernels := by decide
  wellSized o ho := by cases ho
  excessSig k hk := by
    obtain rfl := List.mem_singleton.mp hk
    decide

theorem wire_loses_pow_pairs :
    (∃ bytes, pairMined.serVec Pairs.env = .ok bytes ∧
      deserialize bytes = .ok
        { pairMined.sorted Pairs.env with header := pairMined.header.withoutPow }) ∧
    ¬ pairMined.RoundTrips Pairs.env :=
  wire_loses_pow Pairs.env pairMined_writable

/-- A well-formed block that does not survive the round trip. -/
theorem pow_lost : pairMined.Writable ∧ ¬ pairMined.RoundTrips Pairs.env :=
  ⟨pairMined_writable, not_roundTrips Pairs.env pairMined_writable⟩

end Block

end GrinDotnet
