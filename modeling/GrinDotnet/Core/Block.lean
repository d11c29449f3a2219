import GrinDotnet.Common.Linq
import GrinDotnet.Core.BlockHeader
import GrinDotnet.Keychain.Keychain

/-!
# Blocks

`Block`: building a block from transactions and a reward, cut-through, and validation.
-/

namespace GrinDotnet

open BigEndian

/-- `Block`, as the constructors and the reader make it: the lists are there. `Block.Default`, whose
lists are null, is left out. -/
structure Block where
  header : BlockHeader
  inputs : List Input
  outputs : List Output
  kernels : List TxKernel
deriving DecidableEq

namespace Block

/-- `Block.total_fees`: a wrapping sum, which raises when there is no kernel. -/
def totalFees (self : Block) : Except Exn UInt64 := aggregate (· + ·) (self.kernels.map (·.fee))

/-- `Block.Overage`: the cast comes before the division. -/
def overage (self : Block) : Except Exn Int64 := do
  let fees ← self.totalFees
  return fees.toInt64 / 2 - Consensus.rewardAmount.toInt64

instance : ICommitted Block where
  inputsCommited := inputs
  outputsCommitted := outputs
  overage := overage

/-- The commitments that occur as an input and as an output that is not a coinbase. -/
def commitmentsToCompact (self : Block) : List String :=
  let inSet := self.inputs.map (·.commitment.hex)
  let outSet := (self.outputs.filter
    fun o => !hasFlag o.features OutputFeatures.coinbaseOutput).map (·.commit.hex)
  inSet.filter (· ∈ outSet)

/-- The inputs and outputs that `Block.Compact` keeps, under the header as it is. -/
def cutThrough (self : Block) : Block :=
  { self with
    inputs := self.inputs.filter fun w => w.commitment.hex ∉ self.commitmentsToCompact
    outputs := self.outputs.filter fun w => w.commit.hex ∉ self.commitmentsToCompact }

/-- `Block.Compact`, which clones the header. -/
def compact (self : Block) : Except Exn Block := do
  let header ← self.header.clone
  return { self.cutThrough with header }

theorem compact_eq_ok_iff {b b' : Block} : b.compact = .ok b' ↔
    ∃ header, b.header.clone = .ok header ∧ b' = { b.cutThrough with header } := by
  rw [compact, Outcome.bind_eq_ok]
  simp only [Outcome.pure_eq_ok, Except.ok.injEq, eq_comm]

/-- The clone of a whole header is the header itself. -/
theorem compact_of_whole {b : Block} (h : b.header.pow.Whole) : b.compact = .ok b.cutThrough :=
  compact_eq_ok_iff.mpr ⟨b.header, BlockHeader.clone_eq_self_iff.mpr h, rfl⟩

/-- `Block.verify_kernels`. Everything is checked again for every kernel. -/
def verifyKernels (N : Native) (secp : Secp256K1) (skipSig : Bool) (self : Block) :
    Except Exn Unit :=
  forM self.kernels fun k =>
    if self.header.height < k.lockHeight then
      .error (.block .kernelLockHeight [("lock_height", k.lockHeight)])
    else do
      let ioSum ← sumCommitments N secp self
      let proofSum ← Secp256K1.commitSum N (self.kernels.map (·.excess)) []
      if proofSum.hex ≠ ioSum.hex then .error (.block .kernelSumMismatch [])
      else if skipSig then .ok ()
      else forM self.kernels (TxKernel.verify N secp)

/-- The outputs marked as coinbase. -/
def coinbaseOutputs (self : Block) : List Output :=
  self.outputs.filter fun o => hasFlag o.features OutputFeatures.coinbaseOutput

/-- The kernels marked as coinbase. -/
def coinbaseKernels (self : Block) : List TxKernel :=
  self.kernels.filter fun k => hasFlag k.features KernelFeatures.coinbaseKernel

/-- The two sums `verify_coinbase` compares: outputs less the reward, and kernels. -/
def coinbaseSums (N : Native) (self : Block) : Except Exn (Commitment × Commitment) := do
  let fees ← self.totalFees
  let overCommit ← (Secp256K1.withCaps .commit).commitValue N (Consensus.reward fees)
  let outAdjustSum ← Secp256K1.commitSum N (self.coinbaseOutputs.map (·.commit)) [overCommit]
  let kernsSum ← Secp256K1.commitSum N (self.coinbaseKernels.map (·.excess)) []
  return (outAdjustSum, kernsSum)

/-- `Block.verify_coinbase`: any exception from the sums becomes a block error. -/
def verifyCoinbase (N : Native) (self : Block) : Except Exn Unit :=
  match self.coinbaseSums N with
  | .error _ => .error (.block .secp [])
  | .ok (outAdjustSum, kernsSum) =>
    if kernsSum.hex ≠ outAdjustSum.hex then .error (.block .coinbaseSumMismatch []) else .ok ()

/-- `Block.Validate`. -/
def validate (N : Native) (secp : Secp256K1) (self : Block) : Except Exn Unit :=
  if Consensus.exceedsWeight (UInt32.ofNat self.inputs.length) (UInt32.ofNat self.outputs.length)
      (UInt32.ofNat self.kernels.length) then .error (.block .weightExceeded [])
  else do
    self.verifyCoinbase N
    self.verifyKernels N secp false

variable {env : Env}

/-- `Block.Reward_output`. -/
def rewardOutput (keychain : Keychain env) (keyId : Identifier) (fees : UInt64) :
    Except Exn (Output × TxKernel) := do
  let commit ← keychain.commit (Consensus.reward fees) keyId
  let switchCommit ← keychain.switchCommit keyId
  let msg := ProofMessage.empty
  let rproof ← keychain.rangeProof (Consensus.reward fees) keyId commit msg
  let output : Output :=
    { features := OutputFeatures.coinbaseOutput
      commit
      switchCommitHash := SwitchCommitHash.fromSwitchCommit env switchCommit
      proof := rproof }
  let overCommit ← keychain.secp.commitValue env.secp (Consensus.reward fees)
  let excess ← Secp256K1.commitSum env.secp [commit] [overCommit]
  let msg2 ← Message.fromSlice (List.replicate 32 0)
  let sig ← keychain.sign msg2 keyId
  let excessSig ← sig.serializeDer env.secp
  return (output,
    { features := KernelFeatures.coinbaseKernel
      excess
      excessSig
      fee := 0
      lockHeight := 0 })

/-- `Block.with_reward` at a time, with the static target it finds and the one it leaves. -/
def withReward (env : Env) (now : Int64) (prev : BlockHeader) (txs : List Transaction)
    (rewardOut : Output) (rewardKern : TxKernel) (target : Fixed 8) :
    Except Exn Block × Fixed 8 :=
  match txs.mapM (Transaction.verifySig env.secp (Secp256K1.withCaps .commit)) with
  | .error e => (.error e, target)
  | .ok kernels =>
    match prev.pow.clone with
    | .error e => (.error e, target)
    | .ok pow =>
      match pow.toDifficulty env target with
      | (.error e, after) => (.error e, after)
      | (.ok difficulty, after) =>
        let header : BlockHeader :=
          { BlockHeader.default now with
            height := prev.height + 1
            previous := prev.hash env
            timestamp := now
            totalDifficulty := Difficulty.fromNum (difficulty.num + prev.totalDifficulty.num) }
        let block : Block :=
          { header
            inputs := txs.flatMap (·.inputs)
            outputs := txs.flatMap (·.outputs) ++ [rewardOut]
            kernels := kernels ++ [rewardKern] }
        (block.compact, after)

/-- The fees `Block.New` claims: a wrapping sum, 0 when there is no transaction. -/
def newFees (txs : List Transaction) : UInt64 :=
  match txs.map (·.fee) with
  | [] => 0
  | fee :: fees => fees.foldl (· + ·) fee

/-- `Block.New`. -/
def new (now : Int64) (prev : BlockHeader) (txs : List Transaction) (keychain : Keychain env)
    (keyId : Identifier) (target : Fixed 8) : Except Exn Block × Fixed 8 :=
  match rewardOutput keychain keyId (newFees txs) with
  | .error e => (.error e, target)
  | .ok (rewardOut, rewardProof) => withReward env now prev txs rewardOut rewardProof target

end Block

end GrinDotnet
