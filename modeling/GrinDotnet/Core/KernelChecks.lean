import GrinDotnet.Core.Block
import GrinDotnet.Core.Committed
import GrinDotnet.Secp.Pairs

/-!
# What `verify_kernels` checks

All checks of `verify_kernels` stand in the loop over the kernels, so a block without kernels passes
unchecked, and the check that fees are even is commented out.

Results:
1. `verifyKernels_eq_ok_iff`: what is accepted of a block that has a kernel.
2. `verifyKernels_sound_iff`: when acceptance means that the block is verified.
-/

namespace GrinDotnet

open BigEndian Outcome

variable {N : Native}

/-- The sum of the commitments is only taken of outputs with proofs that verify. -/
theorem verifyProof_of_sumCommitments {secp : Secp256K1} {α : Type} [ICommitted α] {committed : α}
    {c : Commitment} (h : sumCommitments N secp committed = .ok c) :
    ∀ o ∈ ICommitted.outputsCommitted committed, o.verifyProof N = .ok () := by
  obtain ⟨⟨⟩, hproofs, -⟩ := bind_eq_ok.mp h
  exact forM_eq_ok.mp hproofs

namespace Block

/-- The checks that `verify_kernels` makes for each kernel of a block. -/
structure Checked (N : Native) (secp : Secp256K1) (skipSig : Bool) (b : Block) : Prop where
  lockHeights : ∀ k ∈ b.kernels, k.lockHeight ≤ b.header.height
  proofs : ∀ o ∈ b.outputs, o.verifyProof N = .ok ()
  sums : ∃ sum, sumCommitments N secp b = .ok sum ∧
    Secp256K1.commitSum N (b.kernels.map (·.excess)) [] = .ok sum
  signatures : skipSig = false → ∀ k ∈ b.kernels, k.verify N secp = .ok ()

/-- A verified block: it passes the checks, and no fee is odd. -/
structure Verified (N : Native) (secp : Secp256K1) (skipSig : Bool) (b : Block) : Prop
    extends Checked N secp skipSig b where
  evenFees : ∀ k ∈ b.kernels, k.fee &&& 1 = 0

variable {secp : Secp256K1} {skipSig : Bool} {b : Block}

/-- What one turn of the loop of `verify_kernels` accepts. -/
theorem kernelCheck_eq_ok_iff (k : TxKernel) :
    (if b.header.height < k.lockHeight then
      (.error (.block .kernelLockHeight [("lock_height", k.lockHeight)]) : Except Exn Unit)
    else do
      let ioSum ← sumCommitments N secp b
      let proofSum ← Secp256K1.commitSum N (b.kernels.map (·.excess)) []
      if proofSum.hex ≠ ioSum.hex then .error (.block .kernelSumMismatch [])
      else if skipSig then .ok ()
      else forM b.kernels (TxKernel.verify N secp)) = .ok () ↔
    k.lockHeight ≤ b.header.height ∧
      (∃ sum, sumCommitments N secp b = .ok sum ∧
        Secp256K1.commitSum N (b.kernels.map (·.excess)) [] = .ok sum) ∧
      (skipSig = false → ∀ k ∈ b.kernels, k.verify N secp = .ok ()) := by
  have hsigs : (if skipSig then .ok () else forM b.kernels (TxKernel.verify N secp)) = .ok () ↔
      (skipSig = false → ∀ k ∈ b.kernels, k.verify N secp = .ok ()) := by
    cases skipSig with
    | true => simp
    | false => simpa using forM_eq_ok
  by_cases hlock : b.header.height < k.lockHeight
  · simp [hlock, UInt64.not_le.mpr hlock]
  · rw [if_neg hlock, bind_eq_ok]
    constructor
    · rintro ⟨ioSum, hio, hrest⟩
      obtain ⟨proofSum, hproof, hcheck⟩ := bind_eq_ok.mp hrest
      split at hcheck
      · cases hcheck
      · next hhex =>
        obtain rfl := Commitment.hex_injective (not_not.mp hhex)
        exact ⟨UInt64.not_lt.mp hlock, ⟨proofSum, hio, hproof⟩, hsigs.mp hcheck⟩
    · rintro ⟨-, ⟨sum, hio, hproof⟩, h⟩
      refine ⟨sum, hio, bind_eq_ok.mpr ⟨sum, hproof, ?_⟩⟩
      rw [if_neg (not_not.mpr rfl)]
      exact hsigs.mpr h

/-- What `verify_kernels` accepts of a block that has a kernel. -/
theorem verifyKernels_eq_ok_iff (hne : b.kernels ≠ []) :
    b.verifyKernels N secp skipSig = .ok () ↔ b.Checked N secp skipSig := by
  unfold verifyKernels
  rw [forM_eq_ok]
  constructor
  · intro h
    obtain ⟨k, hk⟩ := List.exists_mem_of_ne_nil _ hne
    obtain ⟨-, ⟨sum, hio, hproof⟩, hsigs⟩ := (kernelCheck_eq_ok_iff k).mp (h k hk)
    exact {
      lockHeights := fun k hk => ((kernelCheck_eq_ok_iff k).mp (h k hk)).1
      proofs := verifyProof_of_sumCommitments hio
      sums := ⟨sum, hio, hproof⟩
      signatures := hsigs }
  · intro h k hk
    exact (kernelCheck_eq_ok_iff k).mpr ⟨h.lockHeights k hk, h.sums, h.signatures⟩

/-- A block without kernels passes, whatever it holds. -/
theorem verifyKernels_nil (h : b.kernels = []) : b.verifyKernels N secp skipSig = .ok () := by
  unfold verifyKernels
  rw [h]
  rfl

/-- A block without kernels has no fees and so no sum. -/
theorem kernels_ne_nil_of_sumCommitments {sum : Commitment}
    (h : sumCommitments N secp b = .ok sum) : b.kernels ≠ [] := by
  intro hnil
  obtain ⟨⟨⟩, -, h⟩ := bind_eq_ok.mp h
  obtain ⟨overage, hoverage, -⟩ := bind_eq_ok.mp h
  have hnone : b.overage = .error .invalidOperation := by
    rw [Block.overage, totalFees, hnil]
    rfl
  cases hoverage.symm.trans hnone

/-- Acceptance means that the block is verified exactly when the block has a kernel and, if it
passes the checks, no odd fee. -/
theorem verifyKernels_sound_iff (N : Native) (secp : Secp256K1) (skipSig : Bool) (b : Block) :
    (b.verifyKernels N secp skipSig = .ok () → b.Verified N secp skipSig) ↔
      b.kernels ≠ [] ∧ (b.Checked N secp skipSig → ∀ k ∈ b.kernels, k.fee &&& 1 = 0) := by
  constructor
  · intro h
    have hne : b.kernels ≠ [] := by
      intro hnil
      obtain ⟨sum, hio, -⟩ := (h (verifyKernels_nil hnil)).sums
      exact kernels_ne_nil_of_sumCommitments hio hnil
    exact ⟨hne, fun hchecked => (h ((verifyKernels_eq_ok_iff hne).mpr hchecked)).evenFees⟩
  · rintro ⟨hne, heven⟩ h
    have hchecked := (verifyKernels_eq_ok_iff hne).mp h
    exact ⟨hchecked, heven hchecked⟩

/-- A block over pairs with a kernel of an odd fee, balanced and signed. -/
def pairOddFee : Block where
  header := BlockHeader.default 0
  inputs := []
  outputs := [⟨OutputFeatures.coinbaseOutput, ⟨Pairs.save 50000000000 1⟩, ⟨List.replicate 20 0⟩,
    ⟨[1], 1⟩⟩]
  kernels := [⟨KernelFeatures.coinbaseKernel, 1, 0, ⟨Pairs.save 0 1⟩, kernelSigMsg 1 0 ++ ofNat 32 1⟩]

/-- A block over pairs without kernels, with an output whose proof does not verify. -/
def pairNoKernel : Block where
  header := BlockHeader.default 0
  inputs := []
  outputs := [⟨OutputFeatures.defaultOutput, ⟨Pairs.save (2 ^ 64) 1⟩, ⟨List.replicate 20 0⟩,
    ⟨[1], 1⟩⟩]
  kernels := []

/-- An odd fee is accepted, and so is an unproven output without a kernel. -/
theorem unverified_accepted :
    pairOddFee.verifyKernels Pairs.native ⟨.commit⟩ false = .ok () ∧
    ¬ pairOddFee.Verified Pairs.native ⟨.commit⟩ false ∧
    pairNoKernel.verifyKernels Pairs.native ⟨.commit⟩ false = .ok () ∧
    ¬ pairNoKernel.Verified Pairs.native ⟨.commit⟩ false := by
  refine ⟨by decide +kernel, fun h => ?_, rfl, fun h => ?_⟩
  · have heven := h.evenFees _ List.mem_cons_self
    revert heven
    decide
  · have hproof := h.proofs _ List.mem_cons_self
    revert hproof
    decide +kernel

end Block

end GrinDotnet
