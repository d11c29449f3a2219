import GrinDotnet.Core.Ser
import GrinDotnet.Core.Consensus
import GrinDotnet.Core.Transaction

/-!
# Block headers

`Difficulty`, `Proof` and `BlockHeader`. The array `Difficulty.MaxTarget` is static and `From_hash`
reverses it in place, so every call finds it the other way round: it is passed in and handed back.
-/

namespace GrinDotnet

open BigEndian

/-- `Difficulty`. -/
structure Difficulty where
  num : UInt64
deriving DecidableEq

namespace Difficulty

/-- `Difficulty.MaxTarget` as the program starts. -/
def maxTarget : Fixed 8 := ⟨[0x0f, 0xff, 0xff, 0xff, 0xff, 0xff, 0xff, 0xff], rfl⟩

/-- `Difficulty.From_num`. -/
def fromNum (num : UInt64) : Difficulty := ⟨num⟩

/-- `Difficulty.From_hash`, and the static array as it leaves it. -/
def fromHash (target : Fixed 8) (hash : Bytes) : Except Exn Difficulty × Fixed 8 :=
  let num := UInt64.ofNat (asNat (hash.take 8))
  -- the static array is reversed in place, before the division can raise
  let after : Fixed 8 := ⟨target.1.reverse, by simp [target.2]⟩
  if num = 0 then (.error .divideByZero, after)
  else (.ok ⟨UInt64.ofNat (asNat target.1) / num⟩, after)

end Difficulty

/-- `Proof`. `Proof.Read` does not keep the nonces it reads, so they can be missing. -/
structure Proof where
  nonces : Option (List UInt32)
  proofSize : UInt32
deriving DecidableEq

namespace Proof

/-- `Proof.Zero`. -/
def zero (proofSize : UInt32) : Proof := ⟨some (List.replicate proofSize.toNat 0), proofSize⟩

/-- `Proof.Clone`: it walks the nonces and takes their number as the size. -/
def clone (self : Proof) : Except Exn Proof :=
  match self.nonces with
  | none => .error .nullReference
  | some nonces => .ok ⟨some nonces, UInt32.ofNat nonces.length⟩

theorem clone_eq_ok_iff {pow clone : Proof} : pow.clone = .ok clone ↔
    ∃ nonces, pow.nonces = some nonces ∧ clone = ⟨some nonces, UInt32.ofNat nonces.length⟩ := by
  unfold Proof.clone
  cases pow.nonces with
  | none => simp
  | some nonces => simp [eq_comm]

/-- A proof can be cloned when its nonces are there. -/
theorem exists_clone_iff {pow : Proof} : (∃ clone, pow.clone = .ok clone) ↔ pow.nonces ≠ none := by
  rw [Option.ne_none_iff_exists']
  constructor
  · rintro ⟨clone, hclone⟩
    obtain ⟨nonces, hnonces, -⟩ := clone_eq_ok_iff.mp hclone
    exact ⟨nonces, hnonces⟩
  · rintro ⟨nonces, hnonces⟩
    exact ⟨_, clone_eq_ok_iff.mpr ⟨nonces, hnonces, rfl⟩⟩

/-- A proof as the constructors make it: all nonces are there, and their number is the size. -/
def Whole (pow : Proof) : Prop :=
  ∃ nonces, pow = ⟨some nonces, UInt32.ofNat nonces.length⟩

/-- The proof is its own clone when it is whole. -/
theorem clone_eq_self_iff {pow : Proof} : pow.clone = .ok pow ↔ pow.Whole := by
  rw [clone_eq_ok_iff]
  constructor
  · rintro ⟨nonces, -, hpow⟩
    exact ⟨nonces, hpow⟩
  · rintro ⟨nonces, rfl⟩
    exact ⟨nonces, rfl, rfl⟩

theorem whole_zero (proofSize : UInt32) : (Proof.zero proofSize).Whole :=
  ⟨List.replicate proofSize.toNat 0, by simp [Proof.zero]⟩

/-- `Proof.Write`: the first `ProofSize` nonces. -/
def write (self : Proof) : Except Exn Bytes :=
  match self.nonces with
  -- only the rounds of the loop look at the nonces
  | none => if self.proofSize = 0 then .ok [] else .error .nullReference
  | some nonces =>
    if nonces.length < self.proofSize.toNat then .error .indexOutOfRange
    else .ok ((nonces.take self.proofSize.toNat).flatMap writeU32)

/-- `Proof.To_difficulty`. -/
def toDifficulty (env : Env) (target : Fixed 8) (self : Proof) :
    Except Exn Difficulty × Fixed 8 :=
  match self.write with
  | .error e => (.error e, target)
  | .ok bytes => Difficulty.fromHash target (hashOf env bytes)

end Proof

/-- `BlockHeader`. The timestamp is in the seconds that are written. -/
structure BlockHeader where
  version : UInt16
  height : UInt64
  previous : Bytes
  timestamp : Int64
  utxoRoot : Bytes
  rangeProofRoot : Bytes
  kernelRoot : Bytes
  nonce : UInt64
  pow : Proof
  difficulty : Difficulty
  totalDifficulty : Difficulty
deriving DecidableEq

/-- `Hash.ZERO_HASH`. -/
def zeroHash : Bytes := List.replicate 32 0

/-- `Global.AutomatedTestingProofSize`, which `Global.Proofsize` answers. -/
def automatedTestingProofSize : UInt32 := 4

namespace BlockHeader

/-- `BlockHeader.Default` at a time. -/
def default (now : Int64) : BlockHeader where
  version := 1
  height := 0
  previous := zeroHash
  timestamp := now
  utxoRoot := zeroHash
  rangeProofRoot := zeroHash
  kernelRoot := zeroHash
  nonce := 0
  pow := Proof.zero automatedTestingProofSize
  difficulty := Difficulty.fromNum Consensus.minimumDifficulty
  totalDifficulty := Difficulty.fromNum Consensus.minimumDifficulty

/-- `BlockHeader.Clone`. -/
def clone (self : BlockHeader) : Except Exn BlockHeader := do
  let pow ← self.pow.clone
  return { self with pow }

theorem clone_eq_ok_iff {h clone : BlockHeader} : h.clone = .ok clone ↔
    ∃ pow, h.pow.clone = .ok pow ∧ clone = { h with pow } := by
  rw [BlockHeader.clone, Outcome.bind_eq_ok]
  simp only [Outcome.pure_eq_ok, Except.ok.injEq, eq_comm]

theorem exists_clone_iff {h : BlockHeader} :
    (∃ clone, h.clone = .ok clone) ↔ h.pow.nonces ≠ none := by
  rw [← Proof.exists_clone_iff]
  constructor
  · rintro ⟨clone, hclone⟩
    obtain ⟨pow, hpow, -⟩ := clone_eq_ok_iff.mp hclone
    exact ⟨pow, hpow⟩
  · rintro ⟨pow, hpow⟩
    exact ⟨_, clone_eq_ok_iff.mpr ⟨pow, hpow, rfl⟩⟩

theorem clone_eq_self_iff {h : BlockHeader} : h.clone = .ok h ↔ h.pow.Whole := by
  rw [← Proof.clone_eq_self_iff, clone_eq_ok_iff]
  constructor
  · rintro ⟨pow, hpow, hh⟩
    have hsame : h.pow = pow := congrArg BlockHeader.pow hh
    rw [hpow, hsame]
  · intro hpow
    exact ⟨h.pow, hpow, rfl⟩

/-- `BlockHeader.Write` in hash mode, which leaves the proof out. -/
def writeForHash (self : BlockHeader) : Bytes :=
  writeU16 self.version ++ writeU64 self.height ++ self.previous ++ writeI64 self.timestamp ++
    self.utxoRoot ++ self.rangeProofRoot ++ self.kernelRoot ++ writeU64 self.nonce ++
    writeU64 self.difficulty.num ++ writeU64 self.totalDifficulty.num

/-- The hash of a header. -/
def hash (env : Env) (self : BlockHeader) : Bytes := hashOf env self.writeForHash

end BlockHeader

end GrinDotnet
