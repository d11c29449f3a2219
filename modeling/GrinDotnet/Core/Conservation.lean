import GrinDotnet.Core.Committed
import GrinDotnet.Lib.ExactSum
import GrinDotnet.Secp.Pairs

/-!
# Value conservation

What the modular equation behind an accepted signature says about exact values.

Results:
1. `exact_balance`: a sum of value 0 balances as integers, the overage read as a signed number.
2. `conserved_iff_fee_lt`: a transaction `Validate` accepts conserves value exactly when its fee is
   below `2 ^ 63`. A larger fee is cast to a negative overage and counts as an input.
-/

namespace GrinDotnet

open BigEndian Outcome

variable {N : Native} {E : Type*} [AddCommGroup E]

/-- The bound on the length of every array of the runtime. -/
def maxLength : ℕ := 2 ^ 31

/-- The inputs and outputs are held in arrays of the runtime. -/
def InArrays {α : Type} [ICommitted α] (committed : α) : Prop :=
  (ICommitted.inputsCommited committed).length < maxLength ∧
    (ICommitted.outputsCommitted committed).length < maxLength

/-- Every input opens to a 64-bit value. -/
def Sound.InputsOpen (P : Sound N E) {α : Type} [ICommitted α] (committed : α) : Prop :=
  ∀ i ∈ ICommitted.inputsCommited committed, P.value i.commitment < 2 ^ 64

/-- The total a list of inputs opens to. -/
def Sound.inputTotal (P : Sound N E) (inputs : List Input) : ℕ :=
  (inputs.map fun i => P.value i.commitment).sum

/-- The total a list of outputs opens to. -/
def Sound.outputTotal (P : Sound N E) (outputs : List Output) : ℕ :=
  (outputs.map fun o => P.value o.commit).sum

namespace ConservationLemmas

variable (P : Sound N E)

theorem valueHom_inputs (inputs : List Input) :
    P.valueHom (P.pointSum (inputs.map (·.commitment))) = (P.inputTotal inputs : ZMod N.order) := by
  rw [P.valueHom_pointSum, List.map_map]
  rfl

theorem valueHom_outputs (outputs : List Output) :
    P.valueHom (P.pointSum (outputs.map (·.commit))) = (P.outputTotal outputs : ZMod N.order) := by
  rw [P.valueHom_pointSum, List.map_map]
  rfl

theorem inputTotal_le {inputs : List Input} (hlen : inputs.length < maxLength)
    (h : ∀ i ∈ inputs, P.value i.commitment < 2 ^ 64) : P.inputTotal inputs ≤ 2 ^ 95 :=
  (ExactSum.sum_map_le_of_length_lt h hlen).trans (by norm_num [maxLength])

theorem outputTotal_le {outputs : List Output} (hlen : outputs.length < maxLength)
    (h : ∀ o ∈ outputs, o.verifyProof N = .ok ()) : P.outputTotal outputs ≤ 2 ^ 95 := by
  refine (ExactSum.sum_map_le_of_length_lt (fun o ho => ?_) hlen).trans
    (show maxLength * 2 ^ 64 ≤ 2 ^ 95 by norm_num [maxLength])
  obtain ⟨range, hrange⟩ := verifyProof_eq_ok_iff.mp (h o ho)
  exact P.value_lt_of_verifyRangeProof hrange

theorem valueHom_zsmul_H (k : ℤ) : P.valueHom (k • P.H) = (k : ZMod N.order) := by
  rw [map_zsmul, P.valueHom_H, zsmul_one]

end ConservationLemmas

open ConservationLemmas

/-- A sum of commitments that opens to value 0 balances exactly: the sums are too small to wrap
around the order. -/
theorem exact_balance (P : Sound N E) {α : Type} [ICommitted α] {committed : α} {overage : Int64}
    (harrays : InArrays committed) (hopen : P.InputsOpen committed)
    (hproofs : ∀ o ∈ ICommitted.outputsCommitted committed, o.verifyProof N = .ok ())
    (hzero : P.valueHom (P.excess committed overage.toInt) = 0) :
    (P.outputTotal (ICommitted.outputsCommitted committed) : ℤ) + overage.toInt
      = P.inputTotal (ICommitted.inputsCommited committed) := by
  have hin := inputTotal_le P harrays.1 hopen
  have hout := outputTotal_le P harrays.2 hproofs
  have hlo : -2 ^ 63 ≤ overage.toInt := overage.le_toInt
  have hhi : overage.toInt < 2 ^ 63 := overage.toInt_lt
  have horder : (2 : ℤ) ^ 100 ≤ N.order := by exact_mod_cast P.two_pow_le_order
  refine ExactSum.eq_of_cast_eq (n := N.order) ?_ (by omega) (by omega)
  rw [Pedersen.excess, map_sub, map_add, valueHom_inputs, valueHom_outputs, valueHom_zsmul_H,
    sub_eq_zero] at hzero
  push_cast
  exact hzero

/-- What `verify_sig` accepts has a sum of value 0. -/
theorem valueHom_excess_of_verifySig (P : Sound N E) {secp : Secp256K1} {tx : Transaction}
    {k : TxKernel} (h : tx.verifySig N secp = .ok k) :
    (∀ o ∈ tx.outputs, o.verifyProof N = .ok ()) ∧ tx.fee.toInt64 ≠ Int64.minValue ∧
      P.valueHom (P.excess tx tx.fee.toInt64.toInt) = 0 := by
  obtain ⟨rsum, hsum, hsigned, -⟩ := Transaction.verifySig_eq_ok_iff.mp h
  obtain ⟨hproofs, overage, hover, hmin, hne, rfl⟩ :=
    (sumCommitments_eq_ok_iff P.toPedersen (caps_of_kernelSigned hsigned)).mp hsum
  obtain rfl := Except.ok.inj hover
  refine ⟨hproofs, hmin, ?_⟩
  obtain ⟨s, -, hverify⟩ := hsigned
  have hvalue := P.value_eq_zero_of_verify hverify
  rwa [P.point_save hne] at hvalue

/-- A transaction `Validate` accepts conserves value exactly when its fee is below `2 ^ 63`. -/
theorem conserved_iff_fee_lt (P : Sound N E) {secp : Secp256K1} {tx : Transaction}
    (harrays : InArrays tx) (hopen : P.InputsOpen tx) (h : tx.validate N secp = .ok ()) :
    P.inputTotal tx.inputs = P.outputTotal tx.outputs + tx.fee.toNat ↔ tx.fee.toNat < 2 ^ 63 := by
  obtain ⟨-, -, -, k, hk⟩ := Transaction.validate_eq_ok_iff.mp h
  obtain ⟨hproofs, -, hzero⟩ := valueHom_excess_of_verifySig P hk
  have hbalance : (P.outputTotal tx.outputs : ℤ) + tx.fee.toInt64.toInt = P.inputTotal tx.inputs :=
    exact_balance P harrays hopen hproofs hzero
  rw [Word64.toInt_toInt64] at hbalance
  constructor
  · intro heq
    by_contra hlarge
    rw [if_neg hlarge] at hbalance
    omega
  · intro hsmall
    rw [if_pos hsmall] at hbalance
    omega

/-- A transaction of one input and one output over the library on pairs, signed for its fee. The
input's blinding factor is 1 and the output's is 3. -/
def pairTransaction (inValue outValue : ℕ) (fee : UInt64) : Transaction where
  inputs := [⟨⟨Pairs.save inValue 1⟩⟩]
  outputs := [⟨OutputFeatures.defaultOutput, ⟨Pairs.save outValue 3⟩, ⟨List.replicate 20 0⟩,
    ⟨[1], 1⟩⟩]
  fee
  lockHeight := 0
  excessSig := kernelSigMsg fee 0 ++ ofNat 32 2

/-- Ten in, eight out and a fee of two. -/
theorem conserved_iff_fee_lt_pairs :
    Pairs.sound.inputTotal (pairTransaction 10 8 2).inputs
        = Pairs.sound.outputTotal (pairTransaction 10 8 2).outputs
          + (pairTransaction 10 8 2).fee.toNat
      ↔ (pairTransaction 10 8 2).fee.toNat < 2 ^ 63 := by
  have hopen : Pairs.sound.InputsOpen (pairTransaction 10 8 2) := by
    intro i hi
    obtain rfl := List.mem_singleton.mp hi
    decide +kernel
  have hvalid : (pairTransaction 10 8 2).validate Pairs.native ⟨.commit⟩ = .ok () := by
    decide +kernel
  exact conserved_iff_fee_lt Pairs.sound ⟨by decide, by decide⟩ hopen hvalid

/-- A fee of `2 ^ 64 - 2` is cast to the overage `-2`: five in become seven out. -/
theorem validate_mints_at_large_fee :
    (pairTransaction 5 7 0xFFFFFFFFFFFFFFFE).validate Pairs.native ⟨.commit⟩ = .ok () ∧
    InArrays (pairTransaction 5 7 0xFFFFFFFFFFFFFFFE) ∧
    Pairs.sound.InputsOpen (pairTransaction 5 7 0xFFFFFFFFFFFFFFFE) ∧
    Pairs.sound.inputTotal (pairTransaction 5 7 0xFFFFFFFFFFFFFFFE).inputs = 5 ∧
    Pairs.sound.outputTotal (pairTransaction 5 7 0xFFFFFFFFFFFFFFFE).outputs = 7 ∧
    ¬ Pairs.sound.inputTotal (pairTransaction 5 7 0xFFFFFFFFFFFFFFFE).inputs
        = Pairs.sound.outputTotal (pairTransaction 5 7 0xFFFFFFFFFFFFFFFE).outputs
          + (pairTransaction 5 7 0xFFFFFFFFFFFFFFFE).fee.toNat := by
  refine ⟨by decide +kernel, ⟨by decide, by decide⟩, ?_, by decide +kernel, by decide +kernel,
    by decide +kernel⟩
  intro i hi
  obtain rfl := List.mem_singleton.mp hi
  decide +kernel

end GrinDotnet
