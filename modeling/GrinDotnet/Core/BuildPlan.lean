import GrinDotnet.Core.Build
import GrinDotnet.Keychain.KeyRecovery

/-!
# Plans of transactions

A plan is a transaction to start from, if there is one, and the combinators behind it in any order.
The run of a plan threads four lists of the blinding sum and a transaction through all of them. This
module says what comes out, whatever the order.

Results:
1. `run_parts`: the transaction and the blinding sum after the combinators of a plan.
2. `excess_built`: the commitments of a built transaction sum to the values left over, under the
   blinding factor that was answered.
3. `verifySig_built_iff`: when `verify_sig` accepts a built transaction.
4. `built_in_step`: a plan whose values balance builds a transaction that `verify_sig` accepts if it
   accepts the proofs it started from, and its parts may stand in any order.
-/

namespace GrinDotnet

open BigEndian Outcome

variable {env : Env} {E : Type*} [AddCommGroup E]

namespace Build

/-! ## Plans -/

/-- A combinator that may stand anywhere behind `initial_tx`. -/
inductive Part (N : Native)
  | input (value : UInt64) (keyId : Identifier)
  | output (value : UInt64) (keyId : Identifier)
  | excess (blind : BlindingFactor N)
  | fee (newFee : UInt64)
  | lockHeight (newLockHeight : UInt64)

/-- The combinator of a part. -/
def Part.combinator : Part env.secp → Combinator env
  | .input value keyId => Build.input value keyId
  | .output value keyId => Build.output value keyId
  | .excess blind => withExcess blind
  | .fee newFee => withFee newFee
  | .lockHeight newLockHeight => withLockHeight newLockHeight

section Lists

variable {N : Native}

/-- The value and the key id of an input. -/
@[simp] def Part.input? : Part N → Option (UInt64 × Identifier)
  | .input value keyId => some (value, keyId)
  | _ => none

/-- The value and the key id of an output. -/
@[simp] def Part.output? : Part N → Option (UInt64 × Identifier)
  | .output value keyId => some (value, keyId)
  | _ => none

/-- The blinding factor of an excess. -/
@[simp] def Part.excess? : Part N → Option (BlindingFactor N)
  | .excess blind => some blind
  | _ => none

/-- The fee that is set. -/
@[simp] def Part.fee? : Part N → Option UInt64
  | .fee newFee => some newFee
  | _ => none

/-- The lock height that is set. -/
@[simp] def Part.lockHeight? : Part N → Option UInt64
  | .lockHeight newLockHeight => some newLockHeight
  | _ => none

end Lists

/-- A commitment opens to a value and a blinding factor. -/
def Opens {N : Native} (P : Pedersen N E) (c : Commitment) (opening : ℕ × ZMod N.order) : Prop :=
  P.point c = opening.1 • P.H + P.base opening.2

/-- A transaction to start from, with the openings of its commitments and their excess, of outputs
over inputs. -/
structure Initial {N : Native} (P : Pedersen N E) where
  tx : Transaction
  excess : BlindingFactor N
  inputs : List (ℕ × ZMod N.order)
  outputs : List (ℕ × ZMod N.order)
  opens_inputs : List.Forall₂ (Opens P) (tx.inputs.map (·.commitment)) inputs
  opens_outputs : List.Forall₂ (Opens P) (tx.outputs.map (·.commit)) outputs
  excess_eq : excess.key.residue = (outputs.map Prod.snd).sum - (inputs.map Prod.snd).sum

/-- A plan: the transaction it starts from, if there is one, and the parts behind it, with the
excess of that transaction among them once. -/
structure Plan {N : Native} (P : Pedersen N E) where
  initial : Option (Initial P)
  parts : List (Part N)
  excess : parts.filterMap Part.excess? = initial.toList.map (·.excess)

namespace Plan

section Sums

variable {N : Native} {P : Pedersen N E}

/-- The transaction a plan starts from. -/
def start (plan : Plan P) : Transaction := (plan.initial.map (·.tx)).getD Transaction.empty

/-- The inputs a plan adds. -/
def inputs (plan : Plan P) : List (UInt64 × Identifier) := plan.parts.filterMap Part.input?

/-- The outputs a plan adds. -/
def outputs (plan : Plan P) : List (UInt64 × Identifier) := plan.parts.filterMap Part.output?

/-- The fees a plan sets, one after the other. -/
def fees (plan : Plan P) : List UInt64 := plan.parts.filterMap Part.fee?

/-- The fee that is set last. -/
def fee (plan : Plan P) : UInt64 := plan.fees.getLast?.getD plan.start.fee

/-- The exact value of all inputs. -/
def inputValue (plan : Plan P) : ℕ :=
  (((plan.initial.map (·.inputs)).getD []).map Prod.fst).sum + exactSum (plan.inputs.map Prod.fst)

/-- The exact value of all outputs. -/
def outputValue (plan : Plan P) : ℕ :=
  (((plan.initial.map (·.outputs)).getD []).map Prod.fst).sum
    + exactSum (plan.outputs.map Prod.fst)

/-- The blinding sum of a plan under the keys of its key ids. -/
def blindTotal (plan : Plan P) (keys : Identifier → SecretKey N) : ZMod N.order :=
  Secp256K1.blindTotal
    (plan.outputs.map (fun c => keys c.2) ++ (plan.parts.filterMap Part.excess?).map (·.key))
    (plan.inputs.map fun c => keys c.2)

end Sums

variable {P : Pedersen env.secp E}

/-- The combinators of a plan. -/
def elems (plan : Plan P) : List (Combinator env) :=
  plan.initial.toList.map (fun t => initialTx t.tx) ++ plan.parts.map Part.combinator

/-- The keychain looks up every key id of a plan. -/
def LooksUp (plan : Plan P) (kc : Keychain env) (keys : Identifier → SecretKey env.secp) : Prop :=
  ∀ c ∈ plan.inputs ++ plan.outputs, kc.derivedKey c.2 = .ok (keys c.2)

end Plan

/-! ## What a plan builds -/

/-- A transaction with the inputs, outputs, fee and lock height of some parts. -/
def withParts (P : Pedersen env.secp E) (keys : Identifier → SecretKey env.secp) (tx : Transaction)
    (parts : List (Part env.secp)) : Transaction :=
  { tx with
    inputs := tx.inputs ++
      (parts.filterMap Part.input?).map fun c => ⟨P.commitment c.1 (keys c.2)⟩
    outputs := tx.outputs ++
      (parts.filterMap Part.output?).map fun c => outputUnder env c.1 (keys c.2)
    fee := (parts.filterMap Part.fee?).getLast?.getD tx.fee
    lockHeight := (parts.filterMap Part.lockHeight?).getLast?.getD tx.lockHeight }

/-- A blinding sum with the keys and excesses of some parts. -/
def withBlinds {N : Native} (sum : BlindSum N) (parts : List (Part N)) : BlindSum N :=
  { sum with
    positiveKeyIds := sum.positiveKeyIds ++ (parts.filterMap Part.output?).map Prod.snd
    negativeKeyIds := sum.negativeKeyIds ++ (parts.filterMap Part.input?).map Prod.snd
    positiveBlindingFactors := sum.positiveBlindingFactors ++ parts.filterMap Part.excess? }

open BuildLemmas

section Run

variable (P : Pedersen env.secp E) {kc : Keychain env} {keys : Identifier → SecretKey env.secp}

theorem withParts_append (tx : Transaction) (parts parts' : List (Part env.secp)) :
    withParts P keys (withParts P keys tx parts) parts'
      = withParts P keys tx (parts ++ parts') := by
  simp [withParts, List.getLast?_append, Option.getD_or]

omit [AddCommGroup E] in
theorem withBlinds_append (sum : BlindSum env.secp) (parts parts' : List (Part env.secp)) :
    withBlinds (withBlinds sum parts) parts' = withBlinds sum (parts ++ parts') := by
  simp [withBlinds]

/-- A part adds what it stands for to the transaction and to the blinding sum. -/
theorem step_part {part : Part env.secp}
    (hkeys : ∀ c, part.input? = some c ∨ part.output? = some c → kc.derivedKey c.2 = .ok (keys c.2))
    (tx : Transaction) (sum : BlindSum env.secp) :
    step ⟨kc, tx, sum⟩ part.combinator
      = .ok ⟨kc, withParts P keys tx [part], withBlinds sum [part]⟩ := by
  cases part with
  | input value keyId =>
    have hkey : kc.derivedKey keyId = .ok (keys keyId) := hkeys (value, keyId) (.inl rfl)
    refine (input_eq P hkey value).trans ?_
    simp [withParts, withBlinds, Transaction.withInput, BlindSum.subKeyId]
  | output value keyId =>
    have hkey : kc.derivedKey keyId = .ok (keys keyId) := hkeys (value, keyId) (.inr rfl)
    refine (step_output hkey value).trans ?_
    simp [withParts, withBlinds, Transaction.withOutput, BlindSum.addKeyId]
  | excess blind =>
    refine congrArg Except.ok ?_
    simp [withParts, withBlinds, BlindSum.addBlindingFactor, List.filterMap_cons]
  | fee newFee =>
    refine congrArg Except.ok ?_
    simp [withParts, withBlinds, Transaction.withFee, List.filterMap_cons]
  | lockHeight newLockHeight =>
    refine congrArg Except.ok ?_
    simp [withParts, withBlinds, Transaction.withLockHeight, List.filterMap_cons]

/-- The run of some parts adds what they stand for, each list in their order. -/
theorem run_parts {parts : List (Part env.secp)}
    (hkeys : ∀ part ∈ parts, ∀ c, part.input? = some c ∨ part.output? = some c →
      kc.derivedKey c.2 = .ok (keys c.2))
    (tx : Transaction) (sum : BlindSum env.secp) :
    (parts.map Part.combinator).foldlM step ⟨kc, tx, sum⟩
      = .ok ⟨kc, withParts P keys tx parts, withBlinds sum parts⟩ := by
  induction parts generalizing tx sum with
  | nil => simp [withParts, withBlinds]
  | cons part parts ih =>
    have hrest := ih (fun part' h => hkeys part' (List.mem_cons_of_mem _ h))
    rw [List.map_cons, List.foldlM_cons, step_part P (hkeys part List.mem_cons_self), ok_bind,
      hrest, withParts_append, withBlinds_append, List.singleton_append]

/-- The run of a plan. -/
theorem run_elems (plan : Plan P) (hkeys : plan.LooksUp kc keys) :
    plan.elems.foldlM step ⟨kc, Transaction.empty, BlindSum.new⟩
      = .ok ⟨kc, withParts P keys plan.start plan.parts, withBlinds BlindSum.new plan.parts⟩ := by
  have hparts : ∀ part ∈ plan.parts, ∀ c, part.input? = some c ∨ part.output? = some c →
      kc.derivedKey c.2 = .ok (keys c.2) := by
    intro part hpart c hc
    refine hkeys c (List.mem_append.mpr ?_)
    cases hc with
    | inl hin => exact .inl (List.mem_filterMap.mpr ⟨part, hpart, hin⟩)
    | inr hout => exact .inr (List.mem_filterMap.mpr ⟨part, hpart, hout⟩)
  have hrun := run_parts P hparts plan.start BlindSum.new
  unfold Plan.elems Plan.start at *
  cases hinitial : plan.initial with
  | none =>
    rw [hinitial] at hrun
    exact hrun
  | some t =>
    rw [hinitial] at hrun
    exact hrun

theorem mapM_keys {l : List (UInt64 × Identifier)}
    (h : ∀ c ∈ l, kc.derivedKey c.2 = .ok (keys c.2)) :
    (l.map Prod.snd).mapM kc.derivedKey = .ok (l.map fun c => keys c.2) := by
  refine mapM_eq_ok.mpr ?_
  rw [List.forall₂_map_left_iff, List.forall₂_map_right_iff, List.forall₂_same]
  exact h

end Run

/-! ## The sum of the commitments -/

theorem pointSum_opens {N : Native} (P : Pedersen N E) {cs : List Commitment}
    {openings : List (ℕ × ZMod N.order)} (h : List.Forall₂ (Opens P) cs openings) :
    P.pointSum cs = (openings.map Prod.fst).sum • P.H + P.base (openings.map Prod.snd).sum := by
  induction h with
  | nil => simp
  | cons hc hcs ih =>
    rw [P.pointSum_cons, ih, show P.point _ = _ from hc, List.map_cons, List.map_cons,
      List.sum_cons, List.sum_cons, add_nsmul, map_add]
    abel

/-- The points of values under the keys of key ids. -/
theorem pointSum_keys (P : Pedersen env.secp E) (keys : Identifier → SecretKey env.secp)
    (l : List (UInt64 × Identifier)) :
    P.pointSum (l.map fun c => P.commitment c.1 (keys c.2))
      = exactSum (l.map Prod.fst) • P.H
        + P.base ((l.map fun c => keys c.2).map SecretKey.residue).sum := by
  have hzip : (l.map fun c => P.commitment c.1 (keys c.2))
      = List.zipWith P.commitment (l.map Prod.fst) (l.map fun c => keys c.2) := by
    rw [List.zipWith_map, List.zipWith_self]
  rw [hzip, pointSum_zipWith P (by simp)]

/-- The commitments of a built transaction sum to the values that are left over, with an overage,
under the blinding sum of the plan. -/
theorem excess_built (P : Honest env.secp E) (plan : Plan P.toPedersen)
    (keys : Identifier → SecretKey env.secp) (excessSig : Bytes) (overage : ℤ) :
    P.excess { withParts P.toPedersen keys plan.start plan.parts with excessSig } overage
      = ((plan.outputValue : ℤ) + overage - plan.inputValue) • P.H
        + P.base (plan.blindTotal keys) := by
  have hcommits : ∀ l : List (UInt64 × Identifier),
      (l.map fun c => outputUnder env c.1 (keys c.2)).map (·.commit)
        = l.map fun c => P.commitment c.1 (keys c.2) := by
    intro l
    rw [List.map_map]
    exact List.map_congr_left fun c _ => (builtOutput_outputUnder P c.1 (keys c.2)).commit
  have hinputs : ∀ l : List (UInt64 × Identifier),
      (l.map fun c => (⟨P.commitment c.1 (keys c.2)⟩ : Input)).map (·.commitment)
        = l.map fun c => P.commitment c.1 (keys c.2) := fun l => by
    rw [List.map_map]
    rfl
  have hexcess :
      P.excess { withParts P.toPedersen keys plan.start plan.parts with excessSig } overage
      = P.pointSum ((plan.start.outputs
            ++ plan.outputs.map fun c => outputUnder env c.1 (keys c.2)).map (·.commit))
          + overage • P.H
        - P.pointSum ((plan.start.inputs
            ++ plan.inputs.map fun c => (⟨P.commitment c.1 (keys c.2)⟩ : Input)).map
              (·.commitment)) := rfl
  rw [hexcess, List.map_append, List.map_append, hcommits, hinputs, P.pointSum_append,
    P.pointSum_append, pointSum_keys, pointSum_keys]
  unfold Plan.outputValue Plan.inputValue Plan.blindTotal Plan.start Secp256K1.blindTotal
  rw [plan.excess, List.map_append, List.sum_append]
  cases plan.initial with
  | none =>
    simp only [Option.map_none, Option.getD_none, Option.toList_none, List.map_nil, List.sum_nil,
      Transaction.empty, P.pointSum_nil, zero_add, add_zero, map_sub, sub_zsmul, add_zsmul,
      natCast_zsmul]
    abel
  | some t =>
    have hin := pointSum_opens P.toPedersen t.opens_inputs
    have hout := pointSum_opens P.toPedersen t.opens_outputs
    simp only [Option.map_some, Option.getD_some, Option.toList_some, List.map_cons, List.map_nil,
      List.sum_cons, List.sum_nil, hin, hout, t.excess_eq, add_zero, map_sub, map_add, sub_zsmul,
      add_zsmul, natCast_zsmul, Nat.cast_add]
    abel

/-! ## The transaction of a plan -/

section Built

variable {kc : Keychain env} {keys : Identifier → SecretKey env.secp}

/-- The keychain looks up the key ids of both sides of the blinding sum. -/
theorem mapM_withBlinds {P : Pedersen env.secp E} {plan : Plan P} (hkeys : plan.LooksUp kc keys) :
    (withBlinds BlindSum.new plan.parts).positiveKeyIds.mapM kc.derivedKey
        = .ok (plan.outputs.map fun c => keys c.2) ∧
      (withBlinds BlindSum.new plan.parts).negativeKeyIds.mapM kc.derivedKey
        = .ok (plan.inputs.map fun c => keys c.2) :=
  ⟨mapM_keys fun c hc => hkeys c (List.mem_append_right _ hc),
    mapM_keys fun c hc => hkeys c (List.mem_append_left _ hc)⟩

/-- The total of the blinding sum of a plan. -/
theorem blindTotal_withBlinds {P : Pedersen env.secp E} (plan : Plan P)
    (keys : Identifier → SecretKey env.secp) :
    Secp256K1.blindTotal
        ((plan.outputs.map fun c => keys c.2)
          ++ (withBlinds BlindSum.new plan.parts).positiveBlindingFactors.map (·.key))
        ((plan.inputs.map fun c => keys c.2)
          ++ (withBlinds (BlindSum.new : BlindSum env.secp) plan.parts).negativeBlindingFactors.map
            (·.key))
      = plan.blindTotal keys := by
  have hnone : (withBlinds (BlindSum.new : BlindSum env.secp) plan.parts).negativeBlindingFactors
      = [] := rfl
  rw [hnone, List.map_nil, List.append_nil]
  rfl

/-- A plan builds a transaction with its parts, signed with its blinding sum, when that is not
zero. -/
theorem transaction_of_plan (P : Honest env.secp E) (plan : Plan P.toPedersen)
    (hkeys : plan.LooksUp kc keys) (hne : plan.blindTotal keys ≠ 0) :
    ∃ blind excessSig, transaction plan.elems kc
        = .ok ({ withParts P.toPedersen keys plan.start plan.parts with excessSig }, blind) ∧
      blind.key.residue = plan.blindTotal keys ∧
      ∀ secp : Secp256K1, secp.caps = .commit →
        KernelSigned env.secp secp (withParts P.toPedersen keys plan.start plan.parts).fee
          (withParts P.toPedersen keys plan.start plan.parts).lockHeight excessSig
          ⟨P.save (blind.key.scalar • P.G)⟩ := by
  obtain ⟨hpos, hneg⟩ := mapM_withBlinds hkeys
  have htotal := blindTotal_withBlinds plan keys
  obtain ⟨blind, excessSig, hbuild, hresidue, -, hsigned⟩ :=
    transaction_eq P (run_elems P.toPedersen plan hkeys) hpos hneg (htotal ▸ hne)
  exact ⟨blind, excessSig, hbuild, hresidue.trans htotal, hsigned⟩

/-- A plan whose blinding sum is zero builds nothing. -/
theorem transaction_of_zero (P : Pedersen env.secp E) (plan : Plan P)
    (hkeys : plan.LooksUp kc keys) (hzero : plan.blindTotal keys = 0) :
    transaction plan.elems kc = .error (.exception "InvalidSecretKey") := by
  obtain ⟨hpos, hneg⟩ := mapM_withBlinds hkeys
  have htotal := blindTotal_withBlinds plan keys
  have hrefused := Secp256K1.blindSum_of_zero (htotal.trans hzero)
  unfold transaction
  rw [run_elems P plan hkeys, ok_bind]
  simp only [Keychain.blindSum, hpos, hneg, hrefused, ok_bind, error_bind]

/-- The verdict of `verify_sig` on the transaction of a plan: it accepts the proofs of the
transaction it started from, and the values left over are none, up to the order of the group. -/
structure Accepts {P : Pedersen env.secp E} (plan : Plan P) (secp : Secp256K1) : Prop where
  caps : secp.caps = .commit
  proofs : ∀ o ∈ plan.start.outputs, o.verifyProof env.secp = .ok ()
  fee : plan.fee.toInt64 ≠ Int64.minValue
  values : (((plan.outputValue : ℤ) + plan.fee.toInt64.toInt - plan.inputValue : ℤ)
    : ZMod env.secp.order) = 0

/-- `verify_sig` accepts the transaction of a plan exactly when it accepts the proofs it started
from and no value is left over. The kernel then has the blinding sum for its excess. -/
theorem verifySig_built_iff (P : Faithful env.secp E) (plan : Plan P.toPedersen)
    (hkeys : plan.LooksUp kc keys) (hne : plan.blindTotal keys ≠ 0) {tx : Transaction}
    {blind : BlindingFactor env.secp} (hbuild : transaction plan.elems kc = .ok (tx, blind))
    (secp : Secp256K1) (k : TxKernel) :
    tx.verifySig env.secp secp = .ok k ↔
      Accepts plan secp ∧ k = tx.kernel ⟨P.save (blind.key.scalar • P.G)⟩ := by
  obtain ⟨blind', excessSig, hbuild', hresidue, hsigned⟩ :=
    transaction_of_plan P.toHonest plan hkeys hne
  obtain ⟨rfl, rfl⟩ := Prod.mk.inj (Except.ok.inj (hbuild.symm.trans hbuild'))
  have hexcess := excess_built P.toHonest plan keys excessSig plan.fee.toInt64.toInt
  rw [← hresidue, P.base_residue] at hexcess
  rw [Transaction.verifySig_eq_ok_iff]
  constructor
  · rintro ⟨rsum, hsum, hverified, rfl⟩
    have hcaps := caps_of_kernelSigned hverified
    obtain ⟨hproofs, overage, hoverage, hmin, hpoint, rfl⟩ :=
      (sumCommitments_eq_ok_iff P.toPedersen hcaps).mp hsum
    obtain rfl : plan.fee.toInt64 = overage := Except.ok.inj hoverage
    obtain ⟨sig, -, hverify⟩ := hverified
    -- the signature is that of a commitment to zero, so the values have to cancel
    have hzero := P.toSound.value_eq_zero_of_verify hverify
    rw [show P.toSound.point _ = _ from P.point_save hpoint, hexcess] at hzero
    have hvalues : (((plan.outputValue : ℤ) + plan.fee.toInt64.toInt - plan.inputValue : ℤ)
        : ZMod env.secp.order) = 0 := by
      simpa only [map_add, map_zsmul, map_nsmul, P.toSound.valueHom_H, P.toSound.valueHom_G,
        nsmul_zero, add_zero, zsmul_one] using hzero
    refine ⟨⟨hcaps, fun o ho => hproofs o (List.mem_append_left _ ho), hmin, hvalues⟩, ?_⟩
    rw [hexcess, P.zsmul_eq_zero hvalues, zero_add]
  · rintro ⟨haccepts, rfl⟩
    rw [P.zsmul_eq_zero haccepts.values, zero_add] at hexcess
    have hpoint : blind.key.scalar • P.G ≠ 0 := by
      have h := P.key_ne_zero blind.key 0
      simpa using h
    refine ⟨_, (sumCommitments_eq_ok_iff P.toPedersen haccepts.caps).mpr ⟨fun o ho => ?_,
      plan.fee.toInt64, rfl, haccepts.fee, ?_, ?_⟩, hsigned secp haccepts.caps, rfl⟩
    · cases List.mem_append.mp ho with
      | inl hold => exact haccepts.proofs o hold
      | inr hnew =>
        obtain ⟨c, -, rfl⟩ := List.mem_map.mp hnew
        exact (builtOutput_outputUnder P.toHonest c.1 (keys c.2)).proof
    · rw [hexcess]
      exact hpoint
    · rw [hexcess]

end Built

/-! ## The order of the parts -/

/-- Two runs of the same combinators: both raise the same, or they build transactions of the same
inputs and outputs under one blinding factor. With one fee at most the transactions have the same
fee, and `verify_sig` accepts both or neither. -/
def SameOutcome {N : Native} (fees : List UInt64)
    (r r' : Except Exn (Transaction × BlindingFactor N)) : Prop :=
  (∃ e, r = .error e ∧ r' = .error e) ∨
    ∃ tx tx' blind, r = .ok (tx, blind) ∧ r' = .ok (tx', blind) ∧
      tx.inputs.Perm tx'.inputs ∧ tx.outputs.Perm tx'.outputs ∧
      (fees.length ≤ 1 → tx.fee = tx'.fee ∧
        ∀ secp, (∃ k, tx.verifySig N secp = .ok k) ↔ ∃ k, tx'.verifySig N secp = .ok k)

section Order

/-- The same parts in another order, behind the same transaction. -/
structure Reordered {N : Native} {P : Pedersen N E} (plan plan' : Plan P) : Prop where
  initial : plan'.initial = plan.initial
  parts : plan.parts.Perm plan'.parts

section Sums

variable {N : Native} {P : Pedersen N E} {plan plan' : Plan P} (h : Reordered plan plan')

include h

theorem inputs_perm : plan.inputs.Perm plan'.inputs := h.parts.filterMap _

theorem outputs_perm : plan.outputs.Perm plan'.outputs := h.parts.filterMap _

theorem start_eq : plan'.start = plan.start := by
  rw [Plan.start, Plan.start, h.initial]

theorem blindTotal_perm (keys : Identifier → SecretKey N) :
    plan'.blindTotal keys = plan.blindTotal keys := by
  have hout := (((outputs_perm h).map fun c => keys c.2).append
    ((h.parts.filterMap Part.excess?).map (·.key))).map SecretKey.residue
  have hin := ((inputs_perm h).map fun c => keys c.2).map SecretKey.residue
  unfold Plan.blindTotal Secp256K1.blindTotal
  rw [hout.sum_eq, hin.sum_eq]

theorem inputValue_perm : plan'.inputValue = plan.inputValue := by
  unfold Plan.inputValue
  rw [h.initial, exactSum_perm ((inputs_perm h).map Prod.fst)]

theorem outputValue_perm : plan'.outputValue = plan.outputValue := by
  unfold Plan.outputValue
  rw [h.initial, exactSum_perm ((outputs_perm h).map Prod.fst)]

/-- A fee that is set at most once is the same in every order. -/
theorem fee_perm (hfees : plan.fees.length ≤ 1) : plan'.fee = plan.fee := by
  have hperm : plan.fees.Perm plan'.fees := h.parts.filterMap _
  have hsame : plan'.fees = plan.fees := by
    cases hlist : plan.fees with
    | nil =>
      rw [hlist] at hperm
      exact hperm.symm.eq_nil
    | cons fee rest =>
      rw [hlist] at hperm hfees
      obtain rfl : rest = [] := List.eq_nil_of_length_eq_zero (by simpa using hfees)
      exact hperm.symm.eq_singleton
  rw [Plan.fee, Plan.fee, hsame, start_eq h]

end Sums

variable {kc : Keychain env} {keys : Identifier → SecretKey env.secp}

theorem looksUp_perm {P : Pedersen env.secp E} {plan plan' : Plan P} (h : Reordered plan plan')
    (hkeys : plan.LooksUp kc keys) : plan'.LooksUp kc keys := fun c hc =>
  hkeys c (((inputs_perm h).append (outputs_perm h)).mem_iff.mpr hc)

theorem accepts_perm {P : Pedersen env.secp E} {plan plan' : Plan P} (h : Reordered plan plan')
    (hfees : plan.fees.length ≤ 1) (secp : Secp256K1) : Accepts plan' secp ↔ Accepts plan secp := by
  have hvalues := inputValue_perm h
  have hvalues' := outputValue_perm h
  constructor
  · rintro ⟨hcaps, hproofs, hfee, hzero⟩
    rw [start_eq h] at hproofs
    rw [fee_perm h hfees] at hfee
    rw [fee_perm h hfees, hvalues, hvalues'] at hzero
    exact ⟨hcaps, hproofs, hfee, hzero⟩
  · rintro ⟨hcaps, hproofs, hfee, hzero⟩
    rw [← start_eq h] at hproofs
    rw [← fee_perm h hfees] at hfee
    rw [← fee_perm h hfees, ← hvalues, ← hvalues'] at hzero
    exact ⟨hcaps, hproofs, hfee, hzero⟩

/-- The parts of a plan may stand in any order. -/
theorem sameOutcome_of_reordered (P : Faithful env.secp E) {plan plan' : Plan P.toPedersen}
    (h : Reordered plan plan') (hkeys : plan.LooksUp kc keys) :
    SameOutcome plan.fees (transaction plan.elems kc) (transaction plan'.elems kc) := by
  have hkeys' := looksUp_perm h hkeys
  by_cases hzero : plan.blindTotal keys = 0
  · exact .inl ⟨_, transaction_of_zero P.toPedersen plan hkeys hzero,
      transaction_of_zero P.toPedersen plan' hkeys' ((blindTotal_perm h keys).trans hzero)⟩
  have hzero' : plan'.blindTotal keys ≠ 0 := (blindTotal_perm h keys).symm ▸ hzero
  obtain ⟨blind, excessSig, hbuild, hresidue, -⟩ :=
    transaction_of_plan P.toHonest plan hkeys hzero
  obtain ⟨blind', excessSig', hbuild', hresidue', -⟩ :=
    transaction_of_plan P.toHonest plan' hkeys' hzero'
  have hblind : blind' = blind := by
    have hkey := SecretKey.residue_injective
      ((hresidue'.trans (blindTotal_perm h keys)).trans hresidue.symm)
    cases blind
    cases blind'
    exact congrArg BlindingFactor.mk hkey
  subst hblind
  refine .inr ⟨_, _, _, hbuild, hbuild', ?_, ?_,
    fun hfees => ⟨(fee_perm h hfees).symm, fun secp => ?_⟩⟩
  · show (plan.start.inputs ++ _).Perm (plan'.start.inputs ++ _)
    rw [start_eq h]
    exact ((inputs_perm h).map _).append_left _
  · show (plan.start.outputs ++ _).Perm (plan'.start.outputs ++ _)
    rw [start_eq h]
    exact ((outputs_perm h).map _).append_left _
  · simp only [verifySig_built_iff P plan hkeys hzero hbuild,
      verifySig_built_iff P plan' hkeys' hzero' hbuild', accepts_perm h hfees]
    constructor
    · rintro ⟨k, haccepts, -⟩
      exact ⟨_, haccepts, rfl⟩
    · rintro ⟨k, haccepts, -⟩
      exact ⟨_, haccepts, rfl⟩

end Order

/-- A plan whose values balance builds a transaction of all its inputs and outputs, each list in
order, that `verify_sig` accepts when it accepts the proofs the plan started from; the excess of the
kernel commits to zero under the blinding factor that is answered. Every order of the parts has the
same outcome. -/
theorem built_in_step (P : Faithful env.secp E) (plan : Plan P.toPedersen) (kc : Keychain env)
    (keys : Identifier → SecretKey env.secp) (hkeys : plan.LooksUp kc keys) :
    (plan.blindTotal keys ≠ 0 → plan.fee.toNat < 2 ^ 63 →
      plan.inputValue = plan.outputValue + plan.fee.toNat →
        ∃ tx blind, transaction plan.elems kc = .ok (tx, blind) ∧
          tx.inputs = plan.start.inputs
            ++ plan.inputs.map (fun c => ⟨P.commitment c.1 (keys c.2)⟩) ∧
          tx.outputs = plan.start.outputs
            ++ plan.outputs.map (fun c => outputUnder env c.1 (keys c.2)) ∧
          tx.fee = plan.fee ∧
          ∀ secp : Secp256K1, secp.caps = .commit →
            ((∃ k, tx.verifySig env.secp secp = .ok k) ↔
              ∀ o ∈ plan.start.outputs, o.verifyProof env.secp = .ok ()) ∧
            ∀ k, tx.verifySig env.secp secp = .ok k → secp.commit 0 blind.key = .ok k.excess) ∧
    ∀ plan', Reordered plan plan' →
      SameOutcome plan.fees (transaction plan.elems kc) (transaction plan'.elems kc) := by
  refine ⟨fun hne hfee hbalance => ?_, fun plan' h => sameOutcome_of_reordered P h hkeys⟩
  obtain ⟨blind, excessSig, hbuild, -, -⟩ := transaction_of_plan P.toHonest plan hkeys hne
  have hint : plan.fee.toInt64.toInt = plan.fee.toNat := by
    rw [Word64.toInt_toInt64, if_pos hfee]
  have hmin : plan.fee.toInt64 ≠ Int64.minValue := by
    intro h
    have hneg : Int64.minValue.toInt < 0 := by decide
    rw [← h, hint] at hneg
    omega
  have hvalues : ((plan.outputValue : ℤ) + plan.fee.toInt64.toInt - plan.inputValue) = 0 := by
    rw [hint, hbalance]
    push_cast
    ring
  refine ⟨_, blind, hbuild, rfl, rfl, rfl, fun secp hcaps => ⟨?_, fun k hk => ?_⟩⟩
  · simp only [verifySig_built_iff P plan hkeys hne hbuild]
    constructor
    · rintro ⟨k, haccepts, -⟩
      exact haccepts.proofs
    · intro hproofs
      exact ⟨_, ⟨hcaps, hproofs, hmin, by rw [hvalues, Int.cast_zero]⟩, rfl⟩
  · obtain ⟨-, rfl⟩ := (verifySig_built_iff P plan hkeys hne hbuild secp k).mp hk
    rw [P.commit_eq hcaps]
    simp [Transaction.kernel]

/-! ### Over pairs -/

/-- The library on pairs, as that of their environment. -/
def pairLibrary : Faithful Pairs.env.secp Pairs.Point := Pairs.faithful

theorem firstKey_bounds : 0 < 5 ∧ 5 < Pairs.order := by decide

theorem secondKey_bounds : 0 < 6 ∧ 6 < Pairs.order := by decide

/-- The keys of the first two children. -/
def pairKeys (id : Identifier) : SecretKey Pairs.env.secp :=
  if id = ⟨ofNat 10 5⟩ then Pairs.secretKey 5 firstKey_bounds
  else Pairs.secretKey 6 secondKey_bounds

/-- The parts of a payment of three from five. -/
def pairParts (fees : List UInt64) : List (Part Pairs.env.secp) :=
  .input 5 ⟨ofNat 10 5⟩ :: .output 3 ⟨ofNat 10 6⟩ :: fees.map .fee

theorem filterMap_fees {α : Type} {f : Part Pairs.env.secp → Option α}
    (hf : ∀ newFee, f (.fee newFee) = none) (fees : List UInt64) :
    (fees.map (.fee : UInt64 → Part Pairs.env.secp)).filterMap f = [] := by
  induction fees with
  | nil => rfl
  | cons newFee fees ih => rw [List.map_cons, List.filterMap_cons_none (hf newFee), ih]

theorem excess_pairParts (fees : List UInt64) : (pairParts fees).filterMap Part.excess? = [] :=
  filterMap_fees (fun _ => rfl) fees

/-- A payment of three from five, with these fees set one after the other. -/
def pairPlan (fees : List UInt64) : Plan pairLibrary.toPedersen where
  initial := none
  parts := pairParts fees
  excess := excess_pairParts fees

theorem opens_save {v r : ℕ} (hv : v < 256 ^ 16) (hr : r < 256 ^ 16) :
    Opens pairLibrary.toPedersen ⟨Pairs.save v r⟩ (v, r) := by
  have hpoint : Pairs.load (Pairs.save v r) = ((v : ZMod Pairs.order), (r : ZMod Pairs.order)) :=
    Pairs.load_save hv hr
  have hbase : pairLibrary.base ((r : ℕ) : ZMod Pairs.env.secp.order)
      = r • ((0, 1) : Pairs.Point) := pairLibrary.base_natCast r
  show Pairs.load (Pairs.save v r)
    = v • ((1, 0) : Pairs.Point) + pairLibrary.base ((r : ℕ) : ZMod Pairs.env.secp.order)
  rw [hbase, Pairs.smul_add_smul]
  exact hpoint

/-- A transaction whose output is too large for any range proof. -/
def pairForeignTx : Transaction where
  inputs := [⟨⟨Pairs.save (2 ^ 64) 1⟩⟩]
  outputs := [⟨OutputFeatures.defaultOutput, ⟨Pairs.save (2 ^ 64) 2⟩, ⟨[]⟩, ⟨[], 0⟩⟩]
  fee := 0
  lockHeight := 0
  excessSig := []

theorem one_bounds : 0 < 1 ∧ 1 < Pairs.order := by decide

theorem opens_pairForeignTx :
    List.Forall₂ (Opens pairLibrary.toPedersen) (pairForeignTx.inputs.map (·.commitment))
        [(2 ^ 64, ((1 : ℕ) : ZMod Pairs.env.secp.order))] ∧
      List.Forall₂ (Opens pairLibrary.toPedersen) (pairForeignTx.outputs.map (·.commit))
        [(2 ^ 64, ((2 : ℕ) : ZMod Pairs.env.secp.order))] :=
  ⟨.cons (opens_save (by decide) (by decide)) .nil, .cons (opens_save (by decide) (by decide)) .nil⟩

theorem excess_pairForeignTx :
    SecretKey.residue (N := Pairs.env.secp) (Pairs.secretKey 1 one_bounds)
      = ([(2 ^ 64, ((2 : ℕ) : ZMod Pairs.env.secp.order))].map Prod.snd).sum
        - ([(2 ^ 64, ((1 : ℕ) : ZMod Pairs.env.secp.order))].map Prod.snd).sum := by
  decide +kernel

/-- The plan that starts from this transaction and adds nothing to it. -/
def pairForeign : Plan pairLibrary.toPedersen where
  initial := some
    { tx := pairForeignTx
      excess := ⟨Pairs.secretKey 1 one_bounds⟩
      inputs := [(2 ^ 64, ((1 : ℕ) : ZMod Pairs.env.secp.order))]
      outputs := [(2 ^ 64, ((2 : ℕ) : ZMod Pairs.env.secp.order))]
      opens_inputs := opens_pairForeignTx.1
      opens_outputs := opens_pairForeignTx.2
      excess_eq := excess_pairForeignTx }
  parts := [.excess ⟨Pairs.secretKey 1 one_bounds⟩]
  excess := rfl

theorem looksUp_pairPlan (fees : List UInt64) :
    (pairPlan fees).LooksUp Keychain.pairKeychain pairKeys := by
  have hinputs : (pairPlan fees).inputs = [(5, ⟨ofNat 10 5⟩)] :=
    congrArg (List.cons _) (filterMap_fees (fun _ => rfl) fees)
  have houtputs : (pairPlan fees).outputs = [(3, ⟨ofNat 10 6⟩)] :=
    congrArg (List.cons _) (filterMap_fees (fun _ => rfl) fees)
  unfold Plan.LooksUp
  rw [hinputs, houtputs]
  decide +kernel

theorem built_in_step_pairs :
    ((pairPlan [2]).blindTotal pairKeys ≠ 0 → (pairPlan [2]).fee.toNat < 2 ^ 63 →
      (pairPlan [2]).inputValue = (pairPlan [2]).outputValue + (pairPlan [2]).fee.toNat →
        ∃ tx blind, transaction (pairPlan [2]).elems Keychain.pairKeychain = .ok (tx, blind) ∧
          tx.inputs = (pairPlan [2]).start.inputs ++ (pairPlan [2]).inputs.map
            (fun c => ⟨pairLibrary.commitment c.1 (pairKeys c.2)⟩) ∧
          tx.outputs = (pairPlan [2]).start.outputs ++ (pairPlan [2]).outputs.map
            (fun c => outputUnder Pairs.env c.1 (pairKeys c.2)) ∧
          tx.fee = (pairPlan [2]).fee ∧
          ∀ secp : Secp256K1, secp.caps = .commit →
            ((∃ k, tx.verifySig Pairs.env.secp secp = .ok k) ↔
              ∀ o ∈ (pairPlan [2]).start.outputs, o.verifyProof Pairs.env.secp = .ok ()) ∧
            ∀ k, tx.verifySig Pairs.env.secp secp = .ok k →
              secp.commit 0 blind.key = .ok k.excess) ∧
    ∀ plan', Reordered (pairPlan [2]) plan' →
      SameOutcome (pairPlan [2]).fees (transaction (pairPlan [2]).elems Keychain.pairKeychain)
        (transaction plan'.elems Keychain.pairKeychain) :=
  built_in_step pairLibrary (pairPlan [2]) Keychain.pairKeychain pairKeys (looksUp_pairPlan [2])

/-- A plan that balances is refused for the proof it started from, and of two orders of one plan,
with the fees the other way round, one is accepted and one refused. -/
theorem verdict_not_always :
    ((∀ c ∈ pairForeign.inputs ++ pairForeign.outputs,
          Keychain.pairKeychain.derivedKey c.2 = .ok (pairKeys c.2)) ∧
        pairForeign.blindTotal pairKeys ≠ 0 ∧ pairForeign.fee.toNat < 2 ^ 63 ∧
        pairForeign.inputValue = pairForeign.outputValue + pairForeign.fee.toNat ∧
        ∃ tx blind, transaction pairForeign.elems Keychain.pairKeychain = .ok (tx, blind) ∧
          ∀ k, tx.verifySig Pairs.env.secp (Secp256K1.withCaps .commit) ≠ .ok k) ∧
      Reordered (pairPlan [0, 2]) (pairPlan [2, 0]) ∧
      ∃ tx tx' blind blind',
        transaction (pairPlan [0, 2]).elems Keychain.pairKeychain = .ok (tx, blind) ∧
        transaction (pairPlan [2, 0]).elems Keychain.pairKeychain = .ok (tx', blind') ∧
        (∃ k, tx.verifySig Pairs.env.secp (Secp256K1.withCaps .commit) = .ok k) ∧
        ∀ k, tx'.verifySig Pairs.env.secp (Secp256K1.withCaps .commit) ≠ .ok k := by
  refine ⟨⟨?_, ?_, ?_, ?_, ?_⟩, ⟨rfl, ?_⟩, ?_⟩
  · intro c hc
    cases hc
  · decide +kernel
  · decide +kernel
  · decide +kernel
  · have hkeys : pairForeign.LooksUp Keychain.pairKeychain pairKeys := fun c hc => nomatch hc
    have hne : pairForeign.blindTotal pairKeys ≠ 0 := by decide +kernel
    obtain ⟨blind, excessSig, hbuild, -⟩ :=
      transaction_of_plan pairLibrary.toHonest pairForeign hkeys hne
    refine ⟨_, blind, hbuild, fun k hk => ?_⟩
    have haccepts := ((verifySig_built_iff pairLibrary pairForeign hkeys hne hbuild _ k).mp hk).1
    have hproof := haccepts.proofs _ (List.mem_singleton_self _)
    revert hproof
    decide +kernel
  · exact ((List.Perm.swap _ _ []).cons _).cons _
  · have hne : ∀ fees ∈ [[(0 : UInt64), 2], [2, 0]], (pairPlan fees).blindTotal pairKeys ≠ 0 := by
      decide +kernel
    obtain ⟨blind, excessSig, hbuild, -⟩ := transaction_of_plan pairLibrary.toHonest
      (pairPlan [0, 2]) (looksUp_pairPlan _) (hne [0, 2] (by decide))
    obtain ⟨blind', excessSig', hbuild', -⟩ := transaction_of_plan pairLibrary.toHonest
      (pairPlan [2, 0]) (looksUp_pairPlan _) (hne [2, 0] (by decide))
    refine ⟨_, _, blind, blind', hbuild, hbuild', ⟨_, (verifySig_built_iff pairLibrary
      (pairPlan [0, 2]) (looksUp_pairPlan _) (hne [0, 2] (by decide)) hbuild _ _).mpr
        ⟨⟨rfl, ?_, ?_, ?_⟩, rfl⟩⟩, fun k hk => ?_⟩
    · intro o ho
      cases ho
    · decide +kernel
    · decide +kernel
    · have haccepts := ((verifySig_built_iff pairLibrary (pairPlan [2, 0]) (looksUp_pairPlan _)
        (hne [2, 0] (by decide)) hbuild' _ k).mp hk).1
      have hvalues := haccepts.values
      revert hvalues
      decide +kernel

end Build

end GrinDotnet
