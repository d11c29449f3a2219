import Mathlib.Tactic.Abel
import GrinDotnet.Core.Transaction
import GrinDotnet.Secp.Pedersen

/-!
# Sums of commitments as points

What `sum_commitments` and `verify_sig` compute, as points of the abstract group.

Results:
1. `sumCommitments_eq_ok_iff`: the sum is the encoding of outputs plus overage less inputs.
2. `verifySig_eq_ok_iff`: a transaction's kernel is its sum with a signature that verifies.
3. `validate_eq_ok_iff`: what `Transaction.Validate` accepts.
-/

namespace GrinDotnet

open BigEndian Outcome

variable {N : Native} {E : Type*} [AddCommGroup E]

/-- The point the commitments of a transaction or block sum to, with the overage as an output. -/
def Pedersen.excess (P : Pedersen N E) {α : Type} [ICommitted α] (committed : α) (overage : ℤ) : E :=
  P.pointSum ((ICommitted.outputsCommitted committed).map (·.commit)) + overage • P.H
    - P.pointSum ((ICommitted.inputsCommited committed).map (·.commitment))

theorem mathAbs_eq_ok {x y : Int64} : mathAbs x = .ok y ↔ Word64.abs x = some y := by
  unfold mathAbs
  split <;> simp_all

theorem verifyProof_eq_ok_iff {o : Output} :
    o.verifyProof N = .ok () ↔ ∃ range, Secp256K1.verifyRangeProof N o.commit o.proof = .ok range := by
  unfold Output.verifyProof
  rw [bind_eq_ok]
  simp

section Sum

variable (P : Pedersen N E) {secp : Secp256K1} (hcaps : secp.caps = .commit)
  {α : Type} [ICommitted α] {committed : α}

include hcaps

/-- The commitment of an overage, on the side its sign says, adds the overage to the sum. -/
theorem commitSum_overage {pos neg : List Commitment} {overage : Int64} (hne : overage ≠ 0)
    {c : Commitment} :
    (do
      let amount ← mathAbs overage
      let overCommit ← secp.commitValue N amount.toUInt64
      if overage < 0 then Secp256K1.commitSum N pos (neg ++ [overCommit])
      else Secp256K1.commitSum N (pos ++ [overCommit]) neg) = .ok c ↔
    overage ≠ Int64.minValue ∧ P.pointSum pos + overage.toInt • P.H - P.pointSum neg ≠ 0 ∧
      c = ⟨P.save (P.pointSum pos + overage.toInt • P.H - P.pointSum neg)⟩ := by
  rcases Option.eq_none_or_eq_some (Word64.abs overage) with hnone | ⟨y, hy⟩
  · have habs : mathAbs overage = .error .overflow := by simp [mathAbs, hnone]
    have hmin : overage = Int64.minValue := Word64.abs_eq_none_iff.mp hnone
    rw [habs, error_bind]
    simp [hmin]
  · have hmin : overage ≠ Int64.minValue := by
      intro h
      rw [Word64.abs_eq_none_iff.mpr h] at hy
      cases hy
    have hnat : y.toUInt64.toNat = overage.toInt.natAbs := Word64.toNat_abs hy
    have hint : overage.toInt ≠ 0 := fun h => hne (Int64.toInt_inj.mp h)
    have hyne : y.toUInt64 ≠ 0 := by
      intro h
      rw [h] at hnat
      exact hint (Int.natAbs_eq_zero.mp hnat.symm)
    obtain ⟨minted, hminted, hpoint⟩ := P.commitValue_eq hcaps hyne
    rw [mathAbs_eq_ok.mpr hy, ok_bind, hminted, ok_bind]
    rw [hnat] at hpoint
    have hsign : overage < 0 ↔ overage.toInt < 0 := Int64.lt_iff_toInt_lt
    by_cases hneg : overage < 0
    · have hsmul : overage.toInt.natAbs • P.H = -(overage.toInt • P.H) := by
        rw [← natCast_zsmul, Int.ofNat_natAbs_of_nonpos (hsign.mp hneg).le, neg_zsmul]
      have hsum : P.pointSum pos - P.pointSum (neg ++ [minted])
          = P.pointSum pos + overage.toInt • P.H - P.pointSum neg := by
        rw [P.pointSum_append, P.pointSum_cons, P.pointSum_nil, hpoint, hsmul]
        abel
      rw [if_pos hneg, P.commitSum_eq_ok_iff, hsum]
      simp [hmin]
    · have hsmul : overage.toInt.natAbs • P.H = overage.toInt • P.H := by
        rw [← natCast_zsmul, Int.natAbs_of_nonneg (not_lt.mp fun h => hneg (hsign.mpr h))]
      have hsum : P.pointSum (pos ++ [minted]) - P.pointSum neg
          = P.pointSum pos + overage.toInt • P.H - P.pointSum neg := by
        rw [P.pointSum_append, P.pointSum_cons, P.pointSum_nil, hpoint, hsmul, add_zero]
      rw [if_neg hneg, P.commitSum_eq_ok_iff, hsum]
      simp [hmin]

/-- `sum_commitments` checks the proofs and encodes the point of the sum. It fails on the identity,
and on the one overage without an absolute value. -/
theorem sumCommitments_eq_ok_iff {c : Commitment} :
    sumCommitments N secp committed = .ok c ↔
      (∀ o ∈ ICommitted.outputsCommitted committed, o.verifyProof N = .ok ()) ∧
      ∃ overage, ICommitted.overage committed = .ok overage ∧ overage ≠ Int64.minValue ∧
        P.excess committed overage.toInt ≠ 0 ∧
        c = ⟨P.save (P.excess committed overage.toInt)⟩ := by
  have hproofs : (∃ u, forM (ICommitted.outputsCommitted committed) (Output.verifyProof N) = .ok u)
      ↔ ∀ o ∈ ICommitted.outputsCommitted committed, o.verifyProof N = .ok () := by
    rw [← forM_eq_ok]
    exact ⟨fun ⟨_, h⟩ => h, fun h => ⟨_, h⟩⟩
  have hoverage : ∀ overage : Int64,
      (if overage = 0 then
        Secp256K1.commitSum N ((ICommitted.outputsCommitted committed).map (·.commit))
          ((ICommitted.inputsCommited committed).map (·.commitment))
      else do
        let amount ← mathAbs overage
        let overCommit ← secp.commitValue N amount.toUInt64
        if overage < 0 then
          Secp256K1.commitSum N ((ICommitted.outputsCommitted committed).map (·.commit))
            ((ICommitted.inputsCommited committed).map (·.commitment) ++ [overCommit])
        else
          Secp256K1.commitSum N
            ((ICommitted.outputsCommitted committed).map (·.commit) ++ [overCommit])
            ((ICommitted.inputsCommited committed).map (·.commitment))) = .ok c ↔
      overage ≠ Int64.minValue ∧ P.excess committed overage.toInt ≠ 0 ∧
        c = ⟨P.save (P.excess committed overage.toInt)⟩ := by
    intro overage
    by_cases hzero : overage = 0
    · have hint : (0 : Int64).toInt = 0 := rfl
      have hmin : (0 : Int64) ≠ Int64.minValue := by decide
      rw [if_pos hzero, P.commitSum_eq_ok_iff, hzero]
      simp [Pedersen.excess, hint, hmin]
    · rw [if_neg hzero]
      exact commitSum_overage P hcaps hzero
  unfold sumCommitments
  simp only [bind_eq_ok, hoverage]
  rw [← hproofs]
  tauto

end Sum

/-! ## Transactions -/

theorem length_kernelSigMsg (fee lockHeight : UInt64) : (kernelSigMsg fee lockHeight).length = 32 := by
  simp [kernelSigMsg, writeU64]

/-- The message of a kernel always has the size of a message. -/
theorem fromSlice_kernelSigMsg (fee lockHeight : UInt64) :
    Message.fromSlice (kernelSigMsg fee lockHeight)
      = .ok ⟨⟨kernelSigMsg fee lockHeight, length_kernelSigMsg fee lockHeight⟩⟩ := by
  simp [Message.fromSlice, length_kernelSigMsg]

/-- The signature of a kernel: it parses and verifies against the excess. -/
def KernelSigned (N : Native) (secp : Secp256K1) (fee lockHeight : UInt64) (sig : Bytes)
    (excess : Commitment) : Prop :=
  ∃ s, Signiture.fromDer N sig = .ok s ∧
    secp.verifyFromCommit N
      ⟨⟨kernelSigMsg fee lockHeight, length_kernelSigMsg fee lockHeight⟩⟩ s excess = .ok ()

theorem kernelVerify_eq_ok_iff {secp : Secp256K1} {k : TxKernel} :
    k.verify N secp = .ok () ↔ KernelSigned N secp k.fee k.lockHeight k.excessSig k.excess := by
  unfold TxKernel.verify KernelSigned
  rw [fromSlice_kernelSigMsg, ok_bind, bind_eq_ok]

theorem caps_of_kernelSigned {secp : Secp256K1} {fee lockHeight : UInt64} {sig : Bytes}
    {excess : Commitment} (h : KernelSigned N secp fee lockHeight sig excess) :
    secp.caps = .commit := by
  obtain ⟨s, -, hv⟩ := h
  exact (verifyFromCommit_eq_ok_iff.mp hv).1

namespace Transaction

/-- The kernel a transaction contributes. -/
def kernel (tx : Transaction) (excess : Commitment) : TxKernel :=
  { features := KernelFeatures.defaultKernel
    excess
    excessSig := tx.excessSig
    fee := tx.fee
    lockHeight := tx.lockHeight }

theorem verifySig_eq_ok_iff {secp : Secp256K1} {tx : Transaction} {k : TxKernel} :
    tx.verifySig N secp = .ok k ↔
      ∃ rsum, sumCommitments N secp tx = .ok rsum ∧
        KernelSigned N secp tx.fee tx.lockHeight tx.excessSig rsum ∧ k = tx.kernel rsum := by
  unfold verifySig KernelSigned
  rw [fromSlice_kernelSigMsg]
  simp only [ok_bind, bind_eq_ok, pure_eq_ok, Except.ok.injEq]
  constructor
  · rintro ⟨rsum, hsum, s, hs, ⟨⟩, hv, rfl⟩
    exact ⟨rsum, hsum, ⟨s, hs, hv⟩, rfl⟩
  · rintro ⟨rsum, hsum, ⟨s, hs, hv⟩, rfl⟩
    exact ⟨rsum, hsum, s, hs, ⟨⟩, hv, rfl⟩

/-- What `Validate` accepts: an even fee, not too many inputs, proofs that verify and a kernel. -/
theorem validate_eq_ok_iff {secp : Secp256K1} {tx : Transaction} :
    tx.validate N secp = .ok () ↔
      tx.fee &&& 1 = 0 ∧ tx.inputs.length ≤ Consensus.maxBlockInputs.toNat ∧
      (∀ o ∈ tx.outputs, o.verifyProof N = .ok ()) ∧ ∃ k, tx.verifySig N secp = .ok k := by
  unfold validate
  by_cases hodd : tx.fee &&& 1 = 0
  · by_cases hmany : Consensus.maxBlockInputs.toNat < tx.inputs.length
    · simp [hodd, hmany]
    · rw [if_neg (not_not.mpr hodd), if_neg hmany, bind_eq_ok]
      have hproofs : ∀ u : Unit, forM tx.outputs (Output.verifyProof N) = .ok u
          ↔ ∀ o ∈ tx.outputs, o.verifyProof N = .ok () := fun _ => forM_eq_ok
      simp only [bind_eq_ok, pure_eq_ok, hproofs, hodd, not_lt.mp hmany]
      simp
  · simp [hodd]

end Transaction

end GrinDotnet
