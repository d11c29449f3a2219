import GrinDotnet.Core.Build
import GrinDotnet.Secp.Pairs

/-!
# The message of a kernel

The builder, `verify_sig` and `TxKernel.Verify` share `kernel_sig_msg`, so among themselves they agree
on any layout. The original implementation, whose nodes the wallet posts to, has the fee at offset 16
and the lock height at 24; here both stand one byte further to the left.

Results:
1. `kernelSigMsg_eq_iff`: the two messages are the same for one pair of fee and lock height only.
2. `agrees_iff`: when the code signs and accepts what the original implementation does.
-/

namespace GrinDotnet

open BigEndian Outcome SerLemmas

namespace Original

/-- `kernel_sig_msg` of the original implementation: the fee and the lock height fill the last
sixteen bytes. -/
def kernelSigMsg (fee lockHeight : UInt64) : Bytes :=
  List.replicate 16 0 ++ writeU64 fee ++ writeU64 lockHeight

/-- `TxKernel::verify` of the original implementation, under its static instance. -/
def verify (N : Native) (self : TxKernel) : Except Exn Unit := do
  let msg ← Message.fromSlice (kernelSigMsg self.fee self.lockHeight)
  let sig ← Signiture.fromDer N self.excessSig
  (Secp256K1.withCaps .commit).verifyFromCommit N msg sig self.excess

theorem length_kernelSigMsg (fee lockHeight : UInt64) : (kernelSigMsg fee lockHeight).length = 32 := by
  simp [kernelSigMsg, writeU64]

/-- The message as the signature primitive takes it. -/
def message (fee lockHeight : UInt64) : Message :=
  ⟨⟨kernelSigMsg fee lockHeight, length_kernelSigMsg fee lockHeight⟩⟩

end Original

/-! ## The two layouts -/

namespace KernelMessageLemmas

theorem asNat_zeroes (k : ℕ) : asNat (List.replicate k 0) = 0 :=
  asNat_eq_zero fun _ hb => List.eq_of_mem_replicate hb

/-- The number the original message denotes. -/
theorem asNat_original (fee lockHeight : UInt64) :
    asNat (Original.kernelSigMsg fee lockHeight) = fee.toNat * 2 ^ 64 + lockHeight.toNat := by
  have hlen : (writeU64 lockHeight).length = 8 := length_ofNat 8 _
  unfold Original.kernelSigMsg
  rw [asNat_append, asNat_append, asNat_zeroes, asNat_writeU64, asNat_writeU64, hlen]
  ring

/-- The message of the code is the same number one byte further up. -/
theorem asNat_kernelSigMsg (fee lockHeight : UInt64) :
    asNat (kernelSigMsg fee lockHeight) = (fee.toNat * 2 ^ 64 + lockHeight.toNat) * 256 := by
  have hlen : (writeU64 lockHeight).length = 8 := length_ofNat 8 _
  unfold kernelSigMsg
  rw [asNat_concat, asNat_append, asNat_append, asNat_zeroes, asNat_writeU64, asNat_writeU64, hlen]
  show _ + 0 = _
  ring

end KernelMessageLemmas

open KernelMessageLemmas

/-- The two messages differ unless there is nothing to place. -/
theorem kernelSigMsg_eq_iff (fee lockHeight : UInt64) :
    kernelSigMsg fee lockHeight = Original.kernelSigMsg fee lockHeight ↔
      fee = 0 ∧ lockHeight = 0 := by
  constructor
  · intro h
    have hnat := congrArg asNat h
    rw [asNat_kernelSigMsg, asNat_original] at hnat
    have hfee : fee.toNat = 0 := by omega
    have hlock : lockHeight.toNat = 0 := by omega
    exact ⟨UInt64.toNat_inj.mp hfee, UInt64.toNat_inj.mp hlock⟩
  · rintro ⟨rfl, rfl⟩
    rfl

/-! ## Signing and accepting -/

/-- For a fee and a lock height, the code signs and checks the message of the original
implementation, and accepts the kernels it accepts. -/
structure AgreesWithOriginal (env : Env) (fee lockHeight : UInt64) : Prop where
  message : kernelSigMsg fee lockHeight = Original.kernelSigMsg fee lockHeight
  signs : ∀ (elems : List (Combinator env)) (keychain : Keychain env) (tx : Transaction)
    (blind : BlindingFactor env.secp), Build.transaction elems keychain = .ok (tx, blind) →
    tx.fee = fee → tx.lockHeight = lockHeight →
    ∃ sig, keychain.secp.sign (Original.message fee lockHeight) blind.key = .ok sig ∧
      sig.serializeDer env.secp = .ok tx.excessSig
  checks : ∀ (secp : Secp256K1) (tx : Transaction) (k : TxKernel), tx.fee = fee →
    tx.lockHeight = lockHeight → tx.verifySig env.secp secp = .ok k →
    ∃ sig, Signiture.fromDer env.secp tx.excessSig = .ok sig ∧
      secp.verifyFromCommit env.secp (Original.message fee lockHeight) sig k.excess = .ok ()
  accepts : ∀ k : TxKernel, k.fee = fee → k.lockHeight = lockHeight →
    (k.verify env.secp (Secp256K1.withCaps .commit) = .ok () ↔ Original.verify env.secp k = .ok ())

variable {env : Env}

/-- A built transaction carries a signature of the code's message under its blinding sum. -/
theorem sign_of_transaction {elems : List (Combinator env)} {keychain : Keychain env}
    {tx : Transaction} {blind : BlindingFactor env.secp}
    (h : Build.transaction elems keychain = .ok (tx, blind)) :
    ∃ sig, keychain.secp.sign
        ⟨⟨kernelSigMsg tx.fee tx.lockHeight, length_kernelSigMsg tx.fee tx.lockHeight⟩⟩ blind.key
        = .ok sig ∧ sig.serializeDer env.secp = .ok tx.excessSig := by
  obtain ⟨ctx, -, h⟩ := bind_eq_ok.mp h
  obtain ⟨blindSum, -, h⟩ := bind_eq_ok.mp h
  rw [fromSlice_kernelSigMsg, ok_bind] at h
  obtain ⟨sig, hsig, h⟩ := bind_eq_ok.mp h
  obtain ⟨excessSig, hder, h⟩ := bind_eq_ok.mp h
  cases h
  exact ⟨sig, hsig, hder⟩

/-- The code and the original implementation agree on kernels without fee and lock height, and on
no others. -/
theorem agrees_iff (env : Env) (fee lockHeight : UInt64) :
    AgreesWithOriginal env fee lockHeight ↔ fee = 0 ∧ lockHeight = 0 := by
  constructor
  · intro h
    exact (kernelSigMsg_eq_iff fee lockHeight).mp h.message
  · intro hzero
    have hmsg := (kernelSigMsg_eq_iff fee lockHeight).mpr hzero
    have hmessage : (⟨⟨kernelSigMsg fee lockHeight, length_kernelSigMsg fee lockHeight⟩⟩ : Message)
        = Original.message fee lockHeight := congrArg Message.mk (Subtype.ext hmsg)
    refine ⟨hmsg, ?_, ?_, ?_⟩
    · rintro elems keychain tx blind hbuild rfl rfl
      rw [← hmessage]
      exact sign_of_transaction hbuild
    · rintro secp tx k rfl rfl hverify
      obtain ⟨rsum, -, ⟨sig, hsig, hsigned⟩, rfl⟩ := Transaction.verifySig_eq_ok_iff.mp hverify
      rw [← hmessage]
      exact ⟨sig, hsig, hsigned⟩
    · rintro k rfl rfl
      unfold TxKernel.verify Original.verify
      rw [hmsg]

/-- A kernel of blinding factor 2 over pairs, signed as the code signs a fee of 2. -/
def pairFeeKernel : TxKernel where
  features := KernelFeatures.defaultKernel
  fee := 2
  lockHeight := 0
  excess := ⟨Pairs.save 0 2⟩
  excessSig := kernelSigMsg 2 0 ++ ofNat 32 2

/-- A kernel with a fee that the code accepts and the original implementation refuses. -/
theorem refused_by_original :
    pairFeeKernel.verify Pairs.native (Secp256K1.withCaps .commit) = .ok () ∧
    Original.verify Pairs.native pairFeeKernel = .error (.exception "IncorrectSignature") ∧
    kernelSigMsg 2 0 ≠ Original.kernelSigMsg 2 0 := by
  refine ⟨?_, ?_, ?_⟩
  · decide +kernel
  · decide +kernel
  · decide

end GrinDotnet
