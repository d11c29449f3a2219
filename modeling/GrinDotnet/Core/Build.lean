import GrinDotnet.Common.Linq
import GrinDotnet.Core.Committed
import GrinDotnet.Keychain.Keychain

/-!
# Building transactions

`Build`: combinators that each extend a transaction and a sum of blinding factors, and their run,
which signs with the sum.

Results:
1. `input_eq`, `output_eq`: what a combinator adds, as a commitment and a key.
2. `transaction_eq`: a built transaction carries a signature under its blinding sum.
3. `outputs_of_output`: which output a run of combinators adds.
-/

namespace GrinDotnet

open BigEndian Outcome

/-- `Context`: what a combinator sees. -/
structure Context (env : Env) where
  keychain : Keychain env
  tx : Transaction
  sum : BlindSum env.secp

/-- `Append`: what a combinator answers. -/
structure Append (N : Native) where
  transaction : Transaction
  blind : BlindSum N

/-- A transaction combinator. -/
abbrev Combinator (env : Env) := Context env → Except Exn (Append env.secp)

namespace Build

variable {env : Env}

/-- One turn of the loop of `Build.Transaction`. -/
def step (ctx : Context env) (elem : Combinator env) : Except Exn (Context env) := do
  let append ← elem ctx
  return { ctx with tx := append.transaction, sum := append.blind }

/-- `Build.Transaction`: run the combinators from an empty transaction, then sign with the sum of
the blinding factors. -/
def transaction (elems : List (Combinator env)) (keychain : Keychain env) :
    Except Exn (Transaction × BlindingFactor env.secp) := do
  let ctx ← elems.foldlM step ⟨keychain, Transaction.empty, BlindSum.new⟩
  let blindSum ← keychain.blindSum ctx.sum
  let msg ← Message.fromSlice (kernelSigMsg ctx.tx.fee ctx.tx.lockHeight)
  let sig ← keychain.signWithBlinding msg blindSum
  let excessSig ← sig.serializeDer env.secp
  return ({ ctx.tx with excessSig }, blindSum)

/-- `Build.initial_tx`. -/
def initialTx (tx : Transaction) : Combinator env := fun build => .ok ⟨tx, build.sum⟩

/-- `Build.with_excess`. -/
def withExcess (excess : BlindingFactor env.secp) : Combinator env := fun build =>
  .ok ⟨build.tx, build.sum.addBlindingFactor excess⟩

/-- `Build.Output`. -/
def output (value : UInt64) (keyId : Identifier) : Combinator env := fun build => do
  let commit ← build.keychain.commit value keyId
  let switchCommit ← build.keychain.switchCommit keyId
  let msg := ProofMessage.empty
  let rproof ← build.keychain.rangeProof value keyId commit msg
  return ⟨build.tx.withOutput
    { features := OutputFeatures.defaultOutput
      commit
      switchCommitHash := SwitchCommitHash.fromSwitchCommit env switchCommit
      proof := rproof }, build.sum.addKeyId keyId⟩

/-- `Build.Input`. -/
def input (value : UInt64) (keyId : Identifier) : Combinator env := fun build => do
  let commit ← build.keychain.commit value keyId
  return ⟨build.tx.withInput ⟨commit⟩, build.sum.subKeyId keyId⟩

/-- `Build.with_fee`. -/
def withFee (fee : UInt64) : Combinator env := fun build => .ok ⟨build.tx.withFee fee, build.sum⟩

/-- `Build.with_lock_height`. -/
def withLockHeight (lockHeight : UInt64) : Combinator env := fun build =>
  .ok ⟨build.tx.withLockHeight lockHeight, build.sum⟩

end Build

/-! ## The combinators as points -/

variable {env : Env} {E : Type*} [AddCommGroup E]

/-- The commitment of a value under a key. -/
def Pedersen.commitment {N : Native} (P : Pedersen N E) (value : UInt64) (key : SecretKey N) :
    Commitment :=
  ⟨P.save (value.toNat • P.H + key.scalar • P.G)⟩

@[simp] theorem Pedersen.point_commitment {N : Native} (P : Pedersen N E) (value : UInt64)
    (key : SecretKey N) :
    P.point (P.commitment value key) = value.toNat • P.H + key.scalar • P.G :=
  P.point_save (P.key_ne_zero key value)

/-- An output as `Build.Output` makes it: a commitment under a key with a proof that verifies and
has a wire form. -/
structure BuiltOutput {N : Native} (P : Pedersen N E) (value : UInt64) (key : SecretKey N)
    (out : Output) : Prop where
  features : out.features = OutputFeatures.defaultOutput
  commit : out.commit = P.commitment value key
  proof : out.verifyProof N = .ok ()
  switchCommitHash : out.switchCommitHash.hash.length = switchCommitHashSize
  proof_length : out.proof.proof.length ≤ maxProofSize
  plen : out.proof.plen = out.proof.proof.length

/-- The output of a value under a key, as `Build.Output` makes it. -/
def outputUnder (env : Env) (value : UInt64) (key : SecretKey env.secp) : Output :=
  let commit : Commitment := ⟨(env.secp.pedersenCommit key.value value).getD (zeros 33)⟩
  { features := OutputFeatures.defaultOutput
    commit
    switchCommitHash := SwitchCommitHash.fromSwitchCommit env
      ⟨(env.secp.switchCommit key.value).getD (zeros 33)⟩
    proof := Secp256K1.rangeProof 0 value key commit ProofMessage.empty }

namespace BuildLemmas

theorem commit_eq (P : Pedersen env.secp E) {keychain : Keychain env} {keyId : Identifier}
    {key : SecretKey env.secp} (hkey : keychain.derivedKey keyId = .ok key) (value : UInt64) :
    keychain.commit value keyId = .ok (P.commitment value key) := by
  rw [Keychain.commit, hkey, ok_bind, P.commit_eq keychain.caps_commit]
  rfl

/-- The points of values under keys: the values and the keys add up. -/
theorem pointSum_zipWith (P : Pedersen env.secp E) {values : List UInt64}
    {keys : List (SecretKey env.secp)} (hlen : values.length = keys.length) :
    P.pointSum (List.zipWith P.commitment values keys)
      = exactSum values • P.H + P.base (keys.map SecretKey.residue).sum := by
  induction values generalizing keys with
  | nil =>
    obtain rfl := List.length_eq_zero_iff.mp hlen.symm
    simp
  | cons v values ih =>
    cases keys with
    | nil => cases hlen
    | cons key keys =>
      rw [List.zipWith_cons_cons, P.pointSum_cons, ih (by simpa using hlen), P.point_commitment,
        exactSum_cons, List.map_cons, List.sum_cons, map_add, P.base_residue, add_nsmul]
      abel

theorem pointSum_perm (P : Pedersen env.secp E) {cs ds : List Commitment} (h : cs.Perm ds) :
    P.pointSum cs = P.pointSum ds :=
  (h.map _).sum_eq

/-- An input adds a commitment under its key and takes the key off the sum. -/
theorem input_eq (P : Pedersen env.secp E) {ctx : Context env} {keyId : Identifier}
    {key : SecretKey env.secp} (hkey : ctx.keychain.derivedKey keyId = .ok key) (value : UInt64) :
    Build.step ctx (Build.input value keyId) = .ok { ctx with
      tx := ctx.tx.withInput ⟨P.commitment value key⟩
      sum := ctx.sum.subKeyId keyId } := by
  simp only [Build.step, Build.input, commit_eq P hkey, ok_bind, pure_eq_ok]

/-- The output of a value under a key is as it should be. -/
theorem builtOutput_outputUnder (P : Honest env.secp E) (value : UInt64)
    (key : SecretKey env.secp) : BuiltOutput P.toPedersen value key (outputUnder env value key) := by
  have hcommit : (outputUnder env value key).commit = P.commitment value key := by
    have h := P.pedersenCommit_eq key.value value key.scalar_lt (P.key_ne_zero key value)
    unfold outputUnder
    simp only [h, Option.getD_some]
    rfl
  obtain ⟨⟨range, hrange⟩, hlen, hplen⟩ := P.verifyRangeProof_rangeProof value key ProofMessage.empty
  have hproof : (outputUnder env value key).proof
      = Secp256K1.rangeProof 0 value key (P.commitment value key) ProofMessage.empty := by
    rw [← hcommit]
    rfl
  refine ⟨rfl, hcommit, verifyProof_eq_ok_iff.mpr ⟨range, ?_⟩,
    (env.hmacBlake2B none switchCommitHashSize _).2, ?_, ?_⟩
  · rw [hcommit, hproof]
    exact hrange
  · rw [hproof]
    exact hlen
  · rw [hproof]
    exact hplen

/-- An output adds the output of its value under its key, and adds the key to the sum. -/
theorem step_output {ctx : Context env} {keyId : Identifier} {key : SecretKey env.secp}
    (hkey : ctx.keychain.derivedKey keyId = .ok key) (value : UInt64) :
    Build.step ctx (Build.output value keyId) = .ok { ctx with
      tx := ctx.tx.withOutput (outputUnder env value key)
      sum := ctx.sum.addKeyId keyId } := by
  simp only [Build.step, Build.output, Keychain.commit, Keychain.switchCommit, Keychain.rangeProof,
    hkey, Secp256K1.commit, Secp256K1.switchCommit, ctx.keychain.caps_commit, if_true, ok_bind,
    pure_eq_ok]
  rfl

/-- An output adds a commitment under its key, with a proof, and adds the key to the sum. -/
theorem output_eq (P : Honest env.secp E) {ctx : Context env} {keyId : Identifier}
    {key : SecretKey env.secp} (hkey : ctx.keychain.derivedKey keyId = .ok key) (value : UInt64) :
    ∃ out, BuiltOutput P.toPedersen value key out ∧
      Build.step ctx (Build.output value keyId) = .ok { ctx with
        tx := ctx.tx.withOutput out
        sum := ctx.sum.addKeyId keyId } :=
  ⟨outputUnder env value key, builtOutput_outputUnder P value key, step_output hkey value⟩

/-- A run of inputs adds a commitment for each and takes all their keys off the sum. -/
theorem foldlM_inputs (P : Pedersen env.secp E) {keychain : Keychain env}
    {coins : List (UInt64 × Identifier)} {keys : List (SecretKey env.secp)}
    (hkeys : List.Forall₂ (fun c key => keychain.derivedKey c.2 = .ok key) coins keys)
    (tx : Transaction) (sum : BlindSum env.secp) :
    (coins.map fun c => Build.input c.1 c.2).foldlM Build.step ⟨keychain, tx, sum⟩
      = .ok ⟨keychain,
          { tx with
            inputs := tx.inputs ++ List.zipWith (fun c key => ⟨P.commitment c.1 key⟩) coins keys },
          { sum with negativeKeyIds := sum.negativeKeyIds ++ coins.map Prod.snd }⟩ := by
  induction hkeys generalizing tx sum with
  | nil => simp
  | cons hkey hkeys ih =>
    rw [List.map_cons, List.foldlM_cons, input_eq P hkey, ok_bind]
    simp only
    rw [ih]
    simp [Transaction.withInput, BlindSum.subKeyId]

/-- A built transaction is signed with the blinding sum, when that is not zero. -/
theorem transaction_eq (P : Honest env.secp E) {keychain : Keychain env}
    {elems : List (Combinator env)} {tx : Transaction} {sum : BlindSum env.secp}
    (hrun : elems.foldlM Build.step ⟨keychain, Transaction.empty, BlindSum.new⟩
      = .ok ⟨keychain, tx, sum⟩)
    {posKeys negKeys : List (SecretKey env.secp)}
    (hpos : sum.positiveKeyIds.mapM keychain.derivedKey = .ok posKeys)
    (hneg : sum.negativeKeyIds.mapM keychain.derivedKey = .ok negKeys)
    (hne : Secp256K1.blindTotal (posKeys ++ sum.positiveBlindingFactors.map (·.key))
      (negKeys ++ sum.negativeBlindingFactors.map (·.key)) ≠ 0) :
    ∃ blind excessSig, Build.transaction elems keychain = .ok ({ tx with excessSig }, blind) ∧
      blind.key.residue
        = Secp256K1.blindTotal (posKeys ++ sum.positiveBlindingFactors.map (·.key))
            (negKeys ++ sum.negativeBlindingFactors.map (·.key)) ∧
      excessSig.length ≤ 72 ∧
      ∀ secp : Secp256K1, secp.caps = .commit →
        KernelSigned env.secp secp tx.fee tx.lockHeight excessSig
          ⟨P.save (blind.key.scalar • P.G)⟩ := by
  obtain ⟨blind, hblind, hresidue⟩ := Secp256K1.blindSum_eq hne
  obtain ⟨sig, der, hsig, hder, hlen, -, -⟩ := P.verifyFromCommit_sign keychain.caps_commit
    ⟨⟨kernelSigMsg tx.fee tx.lockHeight, length_kernelSigMsg _ _⟩⟩ blind
  refine ⟨⟨blind⟩, der, ?_, hresidue, hlen, fun secp hcaps => ?_⟩
  · simp only [Build.transaction, hrun, ok_bind, Keychain.blindSum, hpos, hneg, hblind,
      fromSlice_kernelSigMsg, Keychain.signWithBlinding, hsig, hder, pure_eq_ok]
  · obtain ⟨sig', der', hsig', hder', -, hparse, hverify⟩ := P.verifyFromCommit_sign hcaps
      ⟨⟨kernelSigMsg tx.fee tx.lockHeight, length_kernelSigMsg _ _⟩⟩ blind
    have hsame : sig = sig' := by
      have hboth : keychain.secp.sign
          ⟨⟨kernelSigMsg tx.fee tx.lockHeight, length_kernelSigMsg _ _⟩⟩ blind = .ok sig' := by
        rw [← hsig']
        simp only [Secp256K1.sign, Secp256K1.canSign, keychain.caps_commit, hcaps]
      exact Except.ok.inj (hsig.symm.trans hboth)
    subst hsame
    obtain rfl := Except.ok.inj (hder.symm.trans hder')
    exact ⟨sig, hparse, hverify⟩

/-! ## The outputs of a built transaction -/

theorem keychain_of_step {ctx ctx' : Context env} {elem : Combinator env}
    (h : Build.step ctx elem = .ok ctx') : ctx'.keychain = ctx.keychain := by
  obtain ⟨append, -, h⟩ := bind_eq_ok.mp h
  cases h
  rfl

/-- A combinator that leaves the outputs alone. -/
def Quiet (elem : Combinator env) : Prop :=
  ∀ ctx ctx', Build.step ctx elem = .ok ctx' →
    ctx'.keychain = ctx.keychain ∧ ctx'.tx.outputs = ctx.tx.outputs

theorem quiet_withFee (fee : UInt64) : Quiet (Build.withFee fee : Combinator env) := by
  rintro ctx _ ⟨⟩
  exact ⟨rfl, rfl⟩

theorem quiet_withLockHeight (lockHeight : UInt64) :
    Quiet (Build.withLockHeight lockHeight : Combinator env) := by
  rintro ctx _ ⟨⟩
  exact ⟨rfl, rfl⟩

theorem quiet_withExcess (excess : BlindingFactor env.secp) : Quiet (Build.withExcess excess) := by
  rintro ctx _ ⟨⟩
  exact ⟨rfl, rfl⟩

theorem quiet_input (value : UInt64) (keyId : Identifier) :
    Quiet (Build.input value keyId : Combinator env) := by
  intro ctx ctx' h
  obtain ⟨append, happend, h⟩ := bind_eq_ok.mp h
  obtain ⟨commit, -, happend⟩ := bind_eq_ok.mp happend
  cases happend
  cases h
  exact ⟨rfl, rfl⟩

theorem outputs_of_quiet {elems : List (Combinator env)} (hquiet : ∀ elem ∈ elems, Quiet elem)
    {ctx ctx' : Context env} (h : elems.foldlM Build.step ctx = .ok ctx') :
    ctx'.keychain = ctx.keychain ∧ ctx'.tx.outputs = ctx.tx.outputs := by
  refine foldlM_preserves (P := fun c => c.keychain = ctx.keychain ∧ c.tx.outputs = ctx.tx.outputs)
    (fun c elem c' hmem hc hstep => ?_) h ⟨rfl, rfl⟩
  obtain ⟨hkeychain, houtputs⟩ := hquiet elem hmem c c' hstep
  exact ⟨hkeychain.trans hc.1, houtputs.trans hc.2⟩

/-- An output is added under the commitment of its value and its key id. -/
theorem step_output_eq_ok {ctx ctx' : Context env} {value : UInt64} {keyId : Identifier}
    (h : Build.step ctx (Build.output value keyId) = .ok ctx') :
    ∃ out, ctx.keychain.commit value keyId = .ok out.commit ∧
      ctx'.tx.outputs = ctx.tx.outputs ++ [out] := by
  obtain ⟨append, happend, h⟩ := bind_eq_ok.mp h
  obtain ⟨commit, hcommit, happend⟩ := bind_eq_ok.mp happend
  obtain ⟨switchCommit, -, happend⟩ := bind_eq_ok.mp happend
  obtain ⟨proof, -, happend⟩ := bind_eq_ok.mp happend
  cases happend
  cases h
  exact ⟨_, hcommit, rfl⟩

/-- A run with one output combinator adds that output. -/
theorem outputs_of_output {before after : List (Combinator env)} {value : UInt64}
    {keyId : Identifier} (hbefore : ∀ elem ∈ before, Quiet elem)
    (hafter : ∀ elem ∈ after, Quiet elem) {ctx ctx' : Context env}
    (h : (before ++ Build.output value keyId :: after).foldlM Build.step ctx = .ok ctx') :
    ∃ out, ctx.keychain.commit value keyId = .ok out.commit ∧
      ctx'.tx.outputs = ctx.tx.outputs ++ [out] := by
  obtain ⟨ctx₁, h₁, h⟩ := foldlM_append_eq_ok.mp h
  obtain ⟨ctx₂, h₂, h₃⟩ := foldlM_cons_eq_ok.mp h
  obtain ⟨hkeychain, houtputs⟩ := outputs_of_quiet hbefore h₁
  obtain ⟨out, hcommit, hadded⟩ := step_output_eq_ok h₂
  refine ⟨out, hkeychain ▸ hcommit, ?_⟩
  rw [(outputs_of_quiet hafter h₃).2, hadded, houtputs]

/-- A built transaction has the outputs that its combinators gave it. -/
theorem outputs_of_transaction {elems : List (Combinator env)} {keychain : Keychain env}
    {tx : Transaction} {blind : BlindingFactor env.secp}
    (h : Build.transaction elems keychain = .ok (tx, blind)) :
    ∃ ctx, elems.foldlM Build.step ⟨keychain, Transaction.empty, BlindSum.new⟩ = .ok ctx ∧
      tx.outputs = ctx.tx.outputs := by
  obtain ⟨ctx, hrun, h⟩ := bind_eq_ok.mp h
  obtain ⟨blindSum, -, h⟩ := bind_eq_ok.mp h
  obtain ⟨msg, -, h⟩ := bind_eq_ok.mp h
  obtain ⟨sig, -, h⟩ := bind_eq_ok.mp h
  obtain ⟨excessSig, -, h⟩ := bind_eq_ok.mp h
  cases h
  exact ⟨ctx, hrun, rfl⟩

end BuildLemmas

end GrinDotnet
