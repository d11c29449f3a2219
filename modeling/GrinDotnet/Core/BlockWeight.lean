import GrinDotnet.Core.BlockSupply

/-!
# The weight limit

`Exceeds_weight` multiplies and adds in 32-bit words, and `Validate` hands it the lengths of arrays,
which go up to 2^31 - 1. A weight shortly above a multiple of 2^32 passes for a small one.

Results:
1. `exceedsWeight_right_iff`: the counts the limit is right about.
2. `accepts_outweighed`: blocks that are accepted above it.
-/

namespace GrinDotnet

variable {N : Native} {secp : Secp256K1}

namespace Consensus

/-- The weight is at most the limit above a multiple of 2^32 other than zero. -/
def Wraps (inputLen outputLen kernelLen : ℕ) : Prop :=
  ∃ q, 1 ≤ q ∧ q ≤ 6 ∧ q * 2 ^ 32 ≤ weight inputLen outputLen kernelLen ∧
    weight inputLen outputLen kernelLen ≤ q * 2 ^ 32 + maxBlockWeight.toNat

section Counts

variable {i o k : ℕ} (hi : i < 2 ^ 31) (ho : o < 2 ^ 31) (hk : k < 2 ^ 31)

include hi ho hk

theorem wraps_iff : Wraps i o k ↔
    maxBlockWeight.toNat < weight i o k ∧ weight i o k % 2 ^ 32 ≤ maxBlockWeight.toNat := by
  have hmax : maxBlockWeight.toNat = 80000 := rfl
  rw [Wraps, hmax]
  constructor
  · rintro ⟨q, hone, -, hlo, hhi⟩
    constructor
    · omega
    · have hq : weight i o k / 2 ^ 32 = q := by omega
      have hdiv := Nat.div_add_mod (weight i o k) (2 ^ 32)
      rw [hq] at hdiv
      omega
  · rintro ⟨hlt, hle⟩
    have hdiv := Nat.div_add_mod (weight i o k) (2 ^ 32)
    have hwhole : weight i o k ≤ 13 * (2 ^ 31 - 1) := by
      rw [weight]
      omega
    exact ⟨weight i o k / 2 ^ 32, by omega, by omega, by omega, by omega⟩

/-- The comparison is that of the natural numbers for the weights that do not wrap. -/
theorem exceedsWeight_eq_true_iff :
    (exceedsWeight (UInt32.ofNat i) (UInt32.ofNat o) (UInt32.ofNat k) = true ↔
      maxBlockWeight.toNat < weight i o k) ↔ ¬ Wraps i o k := by
  have hle := Nat.mod_le (weight i o k) (2 ^ 32)
  rw [exceedsWeight_iff, wraps_iff hi ho hk]
  constructor
  · rintro h ⟨hlt, hsmall⟩
    exact Nat.not_lt.mpr hsmall (h.mpr hlt)
  · intro h
    constructor
    · intro hlt
      exact lt_of_lt_of_le hlt hle
    · intro hlt
      exact Nat.not_le.mp fun hsmall => h ⟨hlt, hsmall⟩

end Counts

end Consensus

namespace Block

/-- The weight of a block. -/
def weight (b : Block) : ℕ :=
  Consensus.weight b.inputs.length b.outputs.length b.kernels.length

/-- The weight of a block wraps. -/
def Wraps (b : Block) : Prop :=
  Consensus.Wraps b.inputs.length b.outputs.length b.kernels.length

section Lengths

variable {b : Block} (hi : b.inputs.length < 2 ^ 31) (ho : b.outputs.length < 2 ^ 31)
  (hk : b.kernels.length < 2 ^ 31)

include hi ho hk

/-- A block of a weight that wraps is accepted with everything else in order. -/
theorem accepts_outweighed (hwraps : b.Wraps) (hcoinbase : b.verifyCoinbase N = .ok ())
    (hkernels : b.verifyKernels N secp false = .ok ()) :
    b.validate N secp = .ok () ∧ Consensus.maxBlockWeight.toNat < b.weight := by
  obtain ⟨hlt, hsmall⟩ := (Consensus.wraps_iff hi ho hk).mp hwraps
  refine ⟨validate_eq_ok_iff.mpr ⟨Bool.eq_false_iff.mpr fun hexceeds => ?_, hcoinbase, hkernels⟩, hlt⟩
  exact Nat.not_lt.mpr hsmall ((Consensus.exceedsWeight_iff _ _ _).mp hexceeds)

/-- An accepted block whose weight does not wrap is within the limit. -/
theorem weight_le_of_validate (hwraps : ¬ b.Wraps) (h : b.validate N secp = .ok ()) :
    b.weight ≤ Consensus.maxBlockWeight.toNat := by
  obtain ⟨hexceeds, -, -⟩ := validate_eq_ok_iff.mp h
  refine Nat.not_lt.mp fun hlt => Bool.eq_false_iff.mp hexceeds ?_
  exact ((Consensus.exceedsWeight_eq_true_iff hi ho hk).mpr hwraps).mpr hlt

/-- Acceptance says that a block is within the limit unless its weight wraps. -/
theorem weight_le_iff : (b.validate N secp = .ok () → b.weight ≤ Consensus.maxBlockWeight.toNat) ↔
    (b.verifyCoinbase N = .ok () → b.verifyKernels N secp false = .ok () → ¬ b.Wraps) := by
  constructor
  · intro h hcoinbase hkernels hwraps
    obtain ⟨hvalid, hlt⟩ := accepts_outweighed hi ho hk hwraps hcoinbase hkernels
    exact Nat.not_lt.mpr (h hvalid) hlt
  · intro h hvalid
    obtain ⟨-, hcoinbase, hkernels⟩ := validate_eq_ok_iff.mp hvalid
    exact weight_le_of_validate hi ho hk (h hcoinbase hkernels) hvalid

end Lengths

end Block

namespace Consensus

/-- For array lengths, `Exceeds_weight` compares as the natural numbers do exactly when the weight
does not wrap, and so do the blocks `Validate` accepts keep the limit. -/
theorem exceedsWeight_right_iff {i o k : ℕ} (hi : i < 2 ^ 31) (ho : o < 2 ^ 31) (hk : k < 2 ^ 31) :
    ((exceedsWeight (UInt32.ofNat i) (UInt32.ofNat o) (UInt32.ofNat k) = true ↔
        maxBlockWeight.toNat < weight i o k) ↔ ¬ Wraps i o k) ∧
      ∀ (N : Native) (secp : Secp256K1) (b : Block), b.inputs.length = i → b.outputs.length = o →
        b.kernels.length = k →
        ((b.validate N secp = .ok () → b.weight ≤ maxBlockWeight.toNat) ↔
          (b.verifyCoinbase N = .ok () → b.verifyKernels N secp false = .ok () →
            ¬ Wraps i o k)) := by
  refine ⟨exceedsWeight_eq_true_iff hi ho hk, ?_⟩
  rintro N secp b rfl rfl rfl
  exact Block.weight_le_iff hi ho hk

theorem exceedsWeight_right_iff_limit :
    (exceedsWeight (UInt32.ofNat 60000) (UInt32.ofNat 2000) (UInt32.ofNat 1) = true ↔
        maxBlockWeight.toNat < weight 60000 2000 1) ∧
      ¬ (exceedsWeight (UInt32.ofNat 0) (UInt32.ofNat 429496730) (UInt32.ofNat 0) = true ↔
        maxBlockWeight.toNat < weight 0 429496730 0) := by
  constructor
  · refine (exceedsWeight_right_iff (by decide) (by decide) (by decide)).1.mpr ?_
    rintro ⟨q, hone, -, hlo, -⟩
    simp only [weight] at hlo
    omega
  · intro h
    exact (exceedsWeight_right_iff (by decide) (by decide) (by decide)).1.mp h
      ⟨1, by decide, by decide, by decide, by decide⟩

/-- 429496730 outputs weigh four more than 2^32. -/
theorem outputs_wrap :
    maxBlockWeight.toNat < weight 0 429496730 0 ∧
      exceedsWeight (UInt32.ofNat 0) (UInt32.ofNat 429496730) (UInt32.ofNat 0) = false := by
  constructor
  · decide
  · rfl

end Consensus

end GrinDotnet
