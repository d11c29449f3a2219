import Mathlib.Data.UInt
import GrinDotnet.Core.Conservation
import GrinDotnet.Core.KernelChecks

/-!
# Block supply

What an accepted block says about exact values, in terms of the exact sum of its fees.

Results:
1. `coinbaseTotal_eq`: coinbase outputs total the reward for the fees modulo `2 ^ 64`.
2. `balance_of_validate`: inputs and outputs differ by the signed overage.
3. `supply_law_iff_fees_lt`: both supply laws hold exactly when the fees sum to less than `2 ^ 63`.
-/

namespace GrinDotnet

open BigEndian Outcome ConservationLemmas

variable {N : Native} {E : Type*} [AddCommGroup E]

namespace Block

/-- The exact sum of all kernel fees. -/
def exactFees (b : Block) : ℕ := exactSum (b.kernels.map (·.fee))

/-- What `verify_coinbase` accepts: the two sums exist and are equal. -/
theorem verifyCoinbase_eq_ok_iff {b : Block} :
    b.verifyCoinbase N = .ok () ↔ ∃ c, b.coinbaseSums N = .ok (c, c) := by
  unfold verifyCoinbase
  rcases b.coinbaseSums N with e | ⟨outs, kerns⟩
  · simp
  · simp only [Except.ok.injEq, Prod.mk.injEq]
    constructor
    · intro h
      split at h
      · cases h
      · next hhex =>
        obtain rfl := Commitment.hex_injective (not_not.mp hhex)
        exact ⟨_, rfl, rfl⟩
    · rintro ⟨c, rfl, rfl⟩
      simp

theorem coinbaseSums_eq_ok_iff {b : Block} {outs kerns : Commitment} :
    b.coinbaseSums N = .ok (outs, kerns) ↔
      ∃ fees minted, b.totalFees = .ok fees ∧
        (Secp256K1.withCaps .commit).commitValue N (Consensus.reward fees) = .ok minted ∧
        Secp256K1.commitSum N (b.coinbaseOutputs.map (·.commit)) [minted] = .ok outs ∧
        Secp256K1.commitSum N (b.coinbaseKernels.map (·.excess)) [] = .ok kerns := by
  unfold coinbaseSums
  simp only [bind_eq_ok, pure_eq_ok, Except.ok.injEq, Prod.mk.injEq]
  constructor
  · rintro ⟨fees, hfees, minted, hminted, outs', houts, kerns', hkerns, rfl, rfl⟩
    exact ⟨fees, minted, hfees, hminted, houts, hkerns⟩
  · rintro ⟨fees, minted, hfees, hminted, houts, hkerns⟩
    exact ⟨fees, hfees, minted, hminted, outs, houts, kerns, hkerns, rfl, rfl⟩

theorem validate_eq_ok_iff {secp : Secp256K1} {b : Block} :
    b.validate N secp = .ok () ↔
      Consensus.exceedsWeight (UInt32.ofNat b.inputs.length) (UInt32.ofNat b.outputs.length)
        (UInt32.ofNat b.kernels.length) = false ∧
      b.verifyCoinbase N = .ok () ∧ b.verifyKernels N secp false = .ok () := by
  unfold validate
  split
  · next h => simp [h]
  · next h =>
    have hunit : (∃ u, b.verifyCoinbase N = .ok u) ↔ b.verifyCoinbase N = .ok () :=
      ⟨fun ⟨_, hu⟩ => hu, fun hu => ⟨_, hu⟩⟩
    simp only [bind_eq_ok, Bool.eq_false_iff.mpr h, exists_and_right, hunit, true_and]

/-- The overage of a block with kernels, as an integer: the wrapped fees are read as a signed
number and halved towards zero. -/
theorem toInt_overage {b : Block} {fees : UInt64} (hfees : b.totalFees = .ok fees) :
    ∃ overage, b.overage = .ok overage ∧
      overage.toInt = Int.tdiv fees.toInt64.toInt 2 - 50000000000 := by
  refine ⟨fees.toInt64 / 2 - Consensus.rewardAmount.toInt64, ?_, ?_⟩
  · unfold overage
    rw [hfees]
    rfl
  · have hlo : -2 ^ 63 ≤ fees.toInt64.toInt := fees.toInt64.le_toInt
    have hhi : fees.toInt64.toInt < 2 ^ 63 := fees.toInt64.toInt_lt
    have htwo : (2 : Int64).toInt = 2 := rfl
    obtain ⟨hnonneg, hnonpos⟩ := Word64.tdiv_two fees.toInt64.toInt
    have hreward : Consensus.rewardAmount.toInt64.toInt = 50000000000 := by decide
    have hdiv : (Int.tdiv fees.toInt64.toInt 2).bmod (2 ^ 64) = Int.tdiv fees.toInt64.toInt 2 :=
      Int.bmod_eq_of_le (by omega) (by omega)
    rw [Int64.toInt_sub, Int64.toInt_div, htwo, hreward, hdiv]
    exact Int.bmod_eq_of_le (by omega) (by omega)

/-! ## The two laws -/

/-- The excesses of signed kernels sum to a point of value 0. -/
theorem valueHom_excesses (P : Sound N E) {secp : Secp256K1} {ks : List TxKernel}
    (h : ∀ k ∈ ks, KernelSigned N secp k.fee k.lockHeight k.excessSig k.excess) :
    P.valueHom (P.pointSum (ks.map (·.excess))) = 0 := by
  induction ks with
  | nil => simp
  | cons k ks ih =>
    obtain ⟨s, -, hverify⟩ := h k (by simp)
    rw [List.map_cons, P.pointSum_cons, map_add, P.value_eq_zero_of_verify hverify,
      ih fun k hk => h k (by simp [hk]), add_zero]

/-- An accepted block has a kernel, and everything `Validate` checks holds of it. -/
theorem accepted (P : Sound N E) {secp : Secp256K1} {b : Block} (h : b.validate N secp = .ok ()) :
    ∃ fees, b.totalFees = .ok fees ∧ fees.toNat = b.exactFees % 2 ^ 64 ∧
      (∀ o ∈ b.outputs, o.verifyProof N = .ok ()) ∧
      P.valueHom (P.pointSum (b.coinbaseOutputs.map (·.commit)))
        = ((Consensus.reward fees).toNat : ZMod N.order) ∧
      ∃ overage, b.overage = .ok overage ∧ P.valueHom (P.excess b overage.toInt) = 0 := by
  obtain ⟨-, hcoinbase, hkernels⟩ := validate_eq_ok_iff.mp h
  obtain ⟨c, hc⟩ := verifyCoinbase_eq_ok_iff.mp hcoinbase
  obtain ⟨fees, minted, hfees, hminted, houts, hkerns⟩ := coinbaseSums_eq_ok_iff.mp hc
  obtain ⟨htoNat, hmap⟩ := toNat_of_aggregate_add hfees
  have hne : b.kernels ≠ [] := by
    rintro hnil
    rw [hnil] at hmap
    exact hmap rfl
  have hchecked := (verifyKernels_eq_ok_iff hne).mp hkernels
  obtain ⟨ioSum, hio, hproofSum⟩ := hchecked.sums
  have hsigned : ∀ k ∈ b.kernels, KernelSigned N secp k.fee k.lockHeight k.excessSig k.excess :=
    fun k hk => kernelVerify_eq_ok_iff.mp (hchecked.signatures rfl k hk)
  obtain ⟨k, hk⟩ := List.exists_mem_of_ne_nil _ hne
  obtain ⟨hproofs, overage, hoverage, -, hexcess, rfl⟩ :=
    (sumCommitments_eq_ok_iff P.toPedersen (caps_of_kernelSigned (hsigned k hk))).mp hio
  refine ⟨fees, hfees, htoNat, hproofs, ?_, overage, hoverage, ?_⟩
  · have hcommit : (Secp256K1.withCaps .commit).caps = .commit := rfl
    obtain ⟨minted', hminted', hpoint⟩ := P.commitValue_eq hcommit (Consensus.reward_ne_zero fees)
    obtain rfl := Except.ok.inj (hminted.symm.trans hminted')
    have hcoin : ∀ k ∈ b.coinbaseKernels,
        KernelSigned N secp k.fee k.lockHeight k.excessSig k.excess :=
      fun k hk => hsigned k (List.mem_of_mem_filter hk)
    have hval := P.point_commitSum houts
    rw [P.point_commitSum hkerns, P.pointSum_cons, P.pointSum_nil, hpoint] at hval
    have hzero := congrArg P.valueHom hval
    simp only [map_sub, map_add, map_zero, map_nsmul, P.valueHom_H, nsmul_one,
      valueHom_excesses P hcoin] at hzero
    rw [add_zero, sub_zero] at hzero
    exact (sub_eq_zero.mp hzero.symm)
  · have hval := P.point_commitSum hproofSum
    rw [P.point_save hexcess, P.pointSum_nil, sub_zero] at hval
    rw [hval]
    exact valueHom_excesses P hsigned

/-- Coinbase outputs total exactly the reward for the wrapped fees. -/
theorem coinbaseTotal_eq (P : Sound N E) {secp : Secp256K1} {b : Block} (harrays : InArrays b)
    (h : b.validate N secp = .ok ()) :
    P.outputTotal b.coinbaseOutputs = 50000000000 + b.exactFees % 2 ^ 64 / 2 := by
  obtain ⟨fees, -, htoNat, hproofs, hcoinbase, -⟩ := accepted P h
  have hlen : b.coinbaseOutputs.length < maxLength :=
    lt_of_le_of_lt (List.length_filter_le _ _) harrays.2
  have hout := outputTotal_le P hlen fun o ho => hproofs o (List.mem_of_mem_filter ho)
  have horder := P.two_pow_le_order
  have hfees : fees.toNat < 2 ^ 64 := fees.toNat_lt
  rw [valueHom_outputs, Consensus.toNat_reward] at hcoinbase
  have heq : ((P.outputTotal b.coinbaseOutputs : ℕ) : ℤ) = ((50000000000 + fees.toNat / 2 : ℕ) : ℤ) :=
    ExactSum.eq_of_cast_eq (n := N.order) (by exact_mod_cast hcoinbase) (by omega) (by omega)
  rw [← htoNat]
  exact_mod_cast heq

/-- Inputs and outputs of an accepted block differ by the overage of the wrapped fees. -/
theorem balance_of_validate (P : Sound N E) {secp : Secp256K1} {b : Block} (harrays : InArrays b)
    (hopen : P.InputsOpen b) (h : b.validate N secp = .ok ()) :
    (P.outputTotal b.outputs : ℤ)
        + (Int.tdiv (if b.exactFees % 2 ^ 64 < 2 ^ 63 then (b.exactFees % 2 ^ 64 : ℕ)
            else ((b.exactFees % 2 ^ 64 : ℕ) : ℤ) - 2 ^ 64) 2 - 50000000000)
      = P.inputTotal b.inputs := by
  obtain ⟨fees, hfees, htoNat, hproofs, -, overage, hoverage, hzero⟩ := accepted P h
  obtain ⟨overage', hoverage', htoInt⟩ := toInt_overage hfees
  obtain rfl := Except.ok.inj (hoverage.symm.trans hoverage')
  have hbalance : (P.outputTotal b.outputs : ℤ) + overage.toInt = P.inputTotal b.inputs :=
    exact_balance P harrays hopen hproofs hzero
  rw [htoInt, Word64.toInt_toInt64, htoNat] at hbalance
  exact hbalance

/-- Both supply laws hold of an accepted block exactly when its fees sum to less than `2 ^ 63`. -/
theorem supply_law_iff_fees_lt (P : Sound N E) {secp : Secp256K1} {b : Block}
    (harrays : InArrays b) (hopen : P.InputsOpen b) (h : b.validate N secp = .ok ()) :
    (P.outputTotal b.coinbaseOutputs = Consensus.rewardAmount.toNat + b.exactFees / 2 ∧
      P.outputTotal b.outputs + b.exactFees / 2
        = P.inputTotal b.inputs + Consensus.rewardAmount.toNat) ↔
    b.exactFees < 2 ^ 63 := by
  have hcoinbase := coinbaseTotal_eq P harrays h
  have hbalance := balance_of_validate P harrays hopen h
  rw [Consensus.toNat_rewardAmount]
  constructor
  · rintro ⟨hcb, htotal⟩
    by_contra hlarge
    by_cases hwrap : b.exactFees < 2 ^ 64
    · -- the cast makes the overage negative
      rw [Nat.mod_eq_of_lt hwrap, if_neg hlarge] at hbalance
      have hhalf := (Word64.tdiv_two ((b.exactFees : ℤ) - 2 ^ 64)).2 (by omega)
      omega
    · -- the wrapped fees are less than the exact ones
      have hmod : b.exactFees % 2 ^ 64 < 2 ^ 64 := Nat.mod_lt _ (by norm_num)
      omega
  · intro hsmall
    have hmod : b.exactFees % 2 ^ 64 = b.exactFees := Nat.mod_eq_of_lt (by omega)
    rw [hmod] at hcoinbase hbalance
    rw [if_pos hsmall] at hbalance
    have hhalf := (Word64.tdiv_two (b.exactFees : ℤ)).1 (by omega)
    omega

/-- A block of one coinbase output and one coinbase kernel over the library on pairs, both with the
blinding factor 1. -/
def pairBlock (value : ℕ) (fee : UInt64) : Block where
  header := BlockHeader.default 0
  inputs := []
  outputs := [⟨OutputFeatures.coinbaseOutput, ⟨Pairs.save value 1⟩, ⟨List.replicate 20 0⟩, ⟨[1], 1⟩⟩]
  kernels := [⟨KernelFeatures.coinbaseKernel, fee, 0, ⟨Pairs.save 0 1⟩,
    kernelSigMsg fee 0 ++ ofNat 32 1⟩]

/-- The subsidy without fees. -/
theorem supply_law_iff_fees_lt_pairs :
    (Pairs.sound.outputTotal (pairBlock 50000000000 0).coinbaseOutputs
        = Consensus.rewardAmount.toNat + (pairBlock 50000000000 0).exactFees / 2 ∧
      Pairs.sound.outputTotal (pairBlock 50000000000 0).outputs
          + (pairBlock 50000000000 0).exactFees / 2
        = Pairs.sound.inputTotal (pairBlock 50000000000 0).inputs
          + Consensus.rewardAmount.toNat) ↔
    (pairBlock 50000000000 0).exactFees < 2 ^ 63 := by
  have hvalid : (pairBlock 50000000000 0).validate Pairs.native ⟨.commit⟩ = .ok () := by
    decide +kernel
  exact supply_law_iff_fees_lt Pairs.sound ⟨by decide, by decide⟩
    (fun _ hi => absurd hi List.not_mem_nil) hvalid

/-- A fee of `2 ^ 63` is cast to a negative number: half of it is not taken from the outputs but
added to them. -/
theorem validate_mints_at_large_fees :
    (pairBlock (50000000000 + 2 ^ 62) (2 ^ 63)).validate Pairs.native ⟨.commit⟩ = .ok () ∧
    InArrays (pairBlock (50000000000 + 2 ^ 62) (2 ^ 63)) ∧
    Pairs.sound.InputsOpen (pairBlock (50000000000 + 2 ^ 62) (2 ^ 63)) ∧
    (pairBlock (50000000000 + 2 ^ 62) (2 ^ 63)).exactFees = 2 ^ 63 ∧
    Pairs.sound.inputTotal (pairBlock (50000000000 + 2 ^ 62) (2 ^ 63)).inputs = 0 ∧
    Pairs.sound.outputTotal (pairBlock (50000000000 + 2 ^ 62) (2 ^ 63)).outputs
      = 50000000000 + 2 ^ 62 ∧
    ¬ Pairs.sound.outputTotal (pairBlock (50000000000 + 2 ^ 62) (2 ^ 63)).outputs
          + (pairBlock (50000000000 + 2 ^ 62) (2 ^ 63)).exactFees / 2
        = Pairs.sound.inputTotal (pairBlock (50000000000 + 2 ^ 62) (2 ^ 63)).inputs
          + Consensus.rewardAmount.toNat :=
  ⟨by decide +kernel, ⟨by decide, by decide⟩, fun _ hi => absurd hi List.not_mem_nil,
    by decide +kernel, by decide +kernel, by decide +kernel, by decide +kernel⟩

end Block

end GrinDotnet
