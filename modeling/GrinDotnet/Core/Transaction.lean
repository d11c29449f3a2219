import Mathlib.Data.List.Sort
import GrinDotnet.Core.Consensus
import GrinDotnet.Core.Ser
import GrinDotnet.Keychain.ExtendedKey
import GrinDotnet.Lib.Word64

/-!
# Transactions

Inputs, outputs, kernels and transactions, their binary form, and the sum of commitments that makes a
kernel out of a transaction. `ICommitted` is what blocks and transactions share: lists of inputs and
outputs and an explicit overage, which enters the sum as one more commitment.
-/

namespace GrinDotnet

open BigEndian

/-- The flag test of `Enum.HasFlag`. -/
def hasFlag (features flag : UInt8) : Bool := features &&& flag == flag

/-- `OutputFeatures`: flags, of which any byte is a combination. -/
abbrev OutputFeatures := UInt8

/-- `OutputFeatures.DefaultOutput`. -/
def OutputFeatures.defaultOutput : OutputFeatures := 0

/-- `OutputFeatures.CoinbaseOutput`. -/
def OutputFeatures.coinbaseOutput : OutputFeatures := 1

/-- `KernelFeatures`: flags, of which any byte is a combination. -/
abbrev KernelFeatures := UInt8

/-- `KernelFeatures.DefaultKernel`. -/
def KernelFeatures.defaultKernel : KernelFeatures := 0

/-- `KernelFeatures.CoinbaseKernel`. -/
def KernelFeatures.coinbaseKernel : KernelFeatures := 1

/-- `Input`: a reference to an output that is spent. -/
structure Input where
  commitment : Commitment
deriving DecidableEq

/-- `SwitchCommitHash`. -/
structure SwitchCommitHash where
  hash : Bytes
deriving DecidableEq

/-- `TransactionHelper.SwitchCommitHashSize`. -/
def switchCommitHashSize : ℕ := 20

/-- `SwitchCommitHash.From_switch_commit`. -/
def SwitchCommitHash.fromSwitchCommit (env : Env) (switchCommit : Commitment) : SwitchCommitHash :=
  ⟨(env.hmacBlake2B none switchCommitHashSize switchCommit.value.1).1⟩

/-- `Output`. -/
structure Output where
  features : OutputFeatures
  commit : Commitment
  switchCommitHash : SwitchCommitHash
  proof : RangeProof
deriving DecidableEq

/-- `Output.Verify_proof`. -/
def Output.verifyProof (N : Native) (self : Output) : Except Exn Unit := do
  let _ ← Secp256K1.verifyRangeProof N self.commit self.proof
  return ()

/-- `TransactionHelper.kernel_sig_msg`: the fee at offset 15 and the lock height at 23. -/
def kernelSigMsg (fee lockHeight : UInt64) : Bytes :=
  List.replicate 15 0 ++ writeU64 fee ++ writeU64 lockHeight ++ [0]

/-- `TxKernel`: the excess of a transaction and the signature with it. -/
structure TxKernel where
  features : KernelFeatures
  fee : UInt64
  lockHeight : UInt64
  excess : Commitment
  excessSig : Bytes
deriving DecidableEq

/-- `TxKernel.Verify`. -/
def TxKernel.verify (N : Native) (secp : Secp256K1) (self : TxKernel) : Except Exn Unit := do
  let msg ← Message.fromSlice (kernelSigMsg self.fee self.lockHeight)
  let sig ← Signiture.fromDer N self.excessSig
  secp.verifyFromCommit N msg sig self.excess

/-! ## Sums of commitments -/

/-- `ICommitted`. A block without kernels has no overage. -/
class ICommitted (α : Type) where
  inputsCommited : α → List Input
  outputsCommitted : α → List Output
  overage : α → Except Exn Int64

/-- `Math.Abs` of a `long`. -/
def mathAbs (x : Int64) : Except Exn Int64 :=
  match Word64.abs x with
  | some y => .ok y
  | none => .error .overflow

/-- `Committed.sum_commitments`: a positive overage is one more output, a negative one one more
input. -/
def sumCommitments {α : Type} [ICommitted α] (N : Native) (secp : Secp256K1) (committed : α) :
    Except Exn Commitment := do
  forM (ICommitted.outputsCommitted committed) (Output.verifyProof N)
  let inputCommits := (ICommitted.inputsCommited committed).map (·.commitment)
  let outputCommits := (ICommitted.outputsCommitted committed).map (·.commit)
  let overage ← ICommitted.overage committed
  if overage = 0 then Secp256K1.commitSum N outputCommits inputCommits
  else do
    let amount ← mathAbs overage
    let overCommit ← secp.commitValue N amount.toUInt64
    if overage < 0 then Secp256K1.commitSum N outputCommits (inputCommits ++ [overCommit])
    else Secp256K1.commitSum N (outputCommits ++ [overCommit]) inputCommits

/-! ## Transactions -/

/-- `Transaction`. -/
structure Transaction where
  inputs : List Input
  outputs : List Output
  fee : UInt64
  lockHeight : UInt64
  excessSig : Bytes
deriving DecidableEq

namespace Transaction

instance : ICommitted Transaction where
  inputsCommited := inputs
  outputsCommitted := outputs
  overage tx := .ok tx.fee.toInt64

/-- `Transaction.Empty`. -/
def empty : Transaction := ⟨[], [], 0, 0, []⟩

/-- `Transaction.with_input`. -/
def withInput (self : Transaction) (input : Input) : Transaction :=
  { self with inputs := self.inputs ++ [input] }

/-- `Transaction.with_output`. -/
def withOutput (self : Transaction) (output : Output) : Transaction :=
  { self with outputs := self.outputs ++ [output] }

/-- `Transaction.with_fee`. -/
def withFee (self : Transaction) (newfee : UInt64) : Transaction := { self with fee := newfee }

/-- `Transaction.with_lock_height`. -/
def withLockHeight (self : Transaction) (newLockHeight : UInt64) : Transaction :=
  { self with lockHeight := newLockHeight }

/-- `Transaction.verify_sig`: the sum of the commitments is a kernel's excess. -/
def verifySig (N : Native) (secp : Secp256K1) (self : Transaction) : Except Exn TxKernel := do
  let rsum ← sumCommitments N secp self
  let msg ← Message.fromSlice (kernelSigMsg self.fee self.lockHeight)
  let sig ← Signiture.fromDer N self.excessSig
  secp.verifyFromCommit N msg sig rsum
  return {
    features := KernelFeatures.defaultKernel
    excess := rsum
    excessSig := self.excessSig
    fee := self.fee
    lockHeight := self.lockHeight }

/-- `Transaction.Validate`. -/
def validate (N : Native) (secp : Secp256K1) (self : Transaction) : Except Exn Unit :=
  if self.fee &&& 1 ≠ 0 then .error .oddFee
  else if Consensus.maxBlockInputs.toNat < self.inputs.length then .error .toManyInputs
  else do
    forM self.outputs (Output.verifyProof N)
    -- the sum of the commitments verifies every proof again
    let _ ← self.verifySig N secp
    return ()

end Transaction

/-! ## The binary form -/

/-- `Hashed.Hash` of what a writer in hash mode has written. -/
def hashOf (env : Env) (bytes : Bytes) : Bytes := (env.hmacBlake2B none 32 bytes).1

/-- `OrderBy` of the hex of the hash. -/
def orderByHash {α : Type} (env : Env) (write : α → Bytes) (items : List α) : List α :=
  items.insertionSort fun a b =>
    env.stringLe (toHex (hashOf env (write a))) (toHex (hashOf env (write b))) = true

/-- `Input.Write`. -/
def Input.write (self : Input) : Bytes := self.commitment.value.1

/-- `Input.Read`. -/
def Input.read : Reader Input := do
  let commitment ← readCommitment
  return ⟨commitment⟩

/-- `Output.Write`: the hash leaves the range proof out. -/
def Output.write (mode : SerializationMode) (self : Output) : Bytes :=
  writeU8 self.features ++ self.commit.value.1 ++ self.switchCommitHash.hash ++
    if mode = .full then writeBytes self.proof.proof else []

/-- `Output.Read`. -/
def Output.read : Reader Output := do
  let features ← readU8
  let commit ← readCommitment
  let hash ← readFixedBytes (UInt32.ofNat switchCommitHashSize)
  let proof ← readRangeProof
  return ⟨features, commit, ⟨hash⟩, proof⟩

/-- `TxKernel.Write`. -/
def TxKernel.write (self : TxKernel) : Bytes :=
  writeU8 self.features ++ writeU64 self.fee ++ writeU64 self.lockHeight ++ self.excess.value.1 ++
    writeBytes self.excessSig

namespace Transaction

/-- `Transaction.Write`: inputs and outputs leave in the order of their hashes. -/
def write (env : Env) (mode : SerializationMode) (self : Transaction) : Bytes :=
  writeU64 self.fee ++ writeU64 self.lockHeight ++ writeBytes self.excessSig ++
    writeU64 (UInt64.ofNat self.inputs.length) ++ writeU64 (UInt64.ofNat self.outputs.length) ++
    (orderByHash env Input.write self.inputs).flatMap Input.write ++
    (orderByHash env (Output.write .hash) self.outputs).flatMap (Output.write mode)

/-- `Transaction.Read`. -/
def read : Reader Transaction := do
  let fee ← readU64
  let lockHeight ← readU64
  let excessSig ← readVec
  let inputLen ← readU64
  let outputLen ← readU64
  let inputs ← readAndVerifySorted Input.read inputLen
  let outputs ← readAndVerifySorted Output.read outputLen
  return ⟨inputs, outputs, fee, lockHeight, excessSig⟩

/-- `Ser.Ser_vec` of a transaction. -/
def serVec (env : Env) (self : Transaction) : Bytes := self.write env .full

/-- The hash of a transaction. -/
def hash (env : Env) (self : Transaction) : Bytes := hashOf env (self.write env .hash)

/-- `Ser.Deserialize` of a transaction. -/
def deserialize (source : Bytes) : Except Exn Transaction := do
  let p ← read source
  return p.1

end Transaction

end GrinDotnet
