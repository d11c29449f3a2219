import Mathlib.Algebra.Ring.Nat
import GrinDotnet.Common.Errors

/-!
# Consensus constants

`Consensus`: the reward and the weight and size limits of a block.
-/

namespace GrinDotnet

namespace Consensus

/-- `Consensus.GrinBase`. -/
def grinBase : UInt64 := 1000000000

/-- `Consensus.MilliGrin`. -/
def milliGrin : UInt64 := grinBase / 1000

/-- `Consensus.RewardAmount`: the block subsidy. -/
def rewardAmount : UInt64 := 50 * grinBase

/-- `Consensus.Reward`: the block reward for a total of fees. -/
def reward (fee : UInt64) : UInt64 := rewardAmount + fee / 2

/-- `Consensus.BlockInputWeight`. -/
def blockInputWeight : UInt32 := 1

/-- `Consensus.BlockOutputWeight`. -/
def blockOutputWeight : UInt32 := 10

/-- `Consensus.BlockKernelWeight`. -/
def blockKernelWeight : UInt32 := 2

/-- `Consensus.MaxBlockWeight`. -/
def maxBlockWeight : UInt32 := 80000

/-- `Consensus.MaxBlockInputs`. -/
def maxBlockInputs : UInt32 := 300000

/-- `Consensus.MinimumDifficulty`. -/
def minimumDifficulty : UInt64 := 10

/-- `Consensus.Exceeds_weight`. -/
def exceedsWeight (inputLen outputLen kernelLen : UInt32) : Bool :=
  inputLen * blockInputWeight + outputLen * blockOutputWeight + kernelLen * blockKernelWeight
    > maxBlockWeight

theorem toNat_rewardAmount : rewardAmount.toNat = 50000000000 := by decide

/-- Half of the fees always fits on top of the subsidy. -/
theorem toNat_reward (fee : UInt64) : (reward fee).toNat = 50000000000 + fee.toNat / 2 := by
  have hfee : fee.toNat < 2 ^ 64 := fee.toNat_lt
  have htwo : (2 : UInt64).toNat = 2 := rfl
  rw [reward, UInt64.toNat_add, toNat_rewardAmount, UInt64.toNat_div, htwo]
  omega

theorem reward_ne_zero (fee : UInt64) : reward fee ≠ 0 := by
  intro h
  have hzero := congrArg UInt64.toNat h
  rw [toNat_reward] at hzero
  have : (0 : UInt64).toNat = 0 := rfl
  omega

/-- The weight of counts, as a number. -/
def weight (inputLen outputLen kernelLen : ℕ) : ℕ := inputLen * 1 + outputLen * 10 + kernelLen * 2

/-- What is compared with the limit is the weight without what a 32-bit word does not hold. -/
theorem exceedsWeight_iff (i o k : ℕ) :
    exceedsWeight (UInt32.ofNat i) (UInt32.ofNat o) (UInt32.ofNat k) = true ↔
      maxBlockWeight.toNat < weight i o k % 2 ^ 32 := by
  have h1 : blockInputWeight.toNat = 1 := rfl
  have h10 : blockOutputWeight.toNat = 10 := rfl
  have h2 : blockKernelWeight.toNat = 2 := rfl
  have hmax : maxBlockWeight.toNat = 80000 := rfl
  rw [exceedsWeight, decide_eq_true_eq, gt_iff_lt, UInt32.lt_iff_toNat_lt]
  simp only [UInt32.toNat_add, UInt32.toNat_mul, UInt32.toNat_ofNat', h1, h10, h2, hmax, weight]
  omega

/-- Counts of a natural weight below the limit do not exceed it as machine words either. -/
theorem exceedsWeight_eq_false {i o k : ℕ} (h : i + 10 * o + 2 * k ≤ 80000) :
    exceedsWeight (UInt32.ofNat i) (UInt32.ofNat o) (UInt32.ofNat k) = false := by
  have hmax : maxBlockWeight.toNat = 80000 := rfl
  refine Bool.eq_false_iff.mpr fun hexceeds => ?_
  rw [exceedsWeight_iff, hmax, weight] at hexceeds
  omega

end Consensus

end GrinDotnet
