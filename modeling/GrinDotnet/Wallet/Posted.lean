import GrinDotnet.Core.Wire
import GrinDotnet.Wallet.ConcurrentRequests

/-!
# What the server posts

A received payment is completed, validated and posted in its wire form, which orders the inputs and
outputs anew. What is posted is read and validated here as the library itself would, by
`Transaction.Read` and `Transaction.Validate`; the node it goes to has a code of its own, of which
nothing is said.

Results:
1. `sized_of_deserialize`: what is read from a stream has a wire form of its own.
2. `validate_of_perm`: `Transaction.Validate` does not look at the order of inputs and outputs.
3. `posts_valid`: the server posts each completed payment once, in a form that reads back to a valid
   transaction.
-/

namespace GrinDotnet

open BigEndian Outcome SerLemmas

/-! ## Sizes of what is read -/

namespace SerLemmas

theorem run_bind_eq_ok {α β : Type} {x : Reader α} {f : α → Reader β} {s s' : Bytes} {b : β} :
    (x >>= f) s = .ok (b, s') ↔ ∃ a s₁, x s = .ok (a, s₁) ∧ f a s₁ = .ok (b, s') := by
  cases hx : x s with
  | error e => simp [run_bind_of_error hx]
  | ok r =>
    obtain ⟨a, s₁⟩ := r
    simp [run_bind_of_ok hx]

theorem length_of_readFixedBytes {length : UInt32} {s rest bs : Bytes}
    (h : readFixedBytes length s = .ok (bs, rest)) : bs.length = length.toNat := by
  unfold readFixedBytes at h
  split at h
  · cases h
  · obtain ⟨rfl, -⟩ := Prod.mk.inj (Except.ok.inj h)
    rw [List.length_append, List.length_take, List.length_replicate]
    omega

theorem length_of_readLimitedVec {max : UInt32} {s rest bs : Bytes}
    (h : readLimitedVec max s = .ok (bs, rest)) : bs.length ≤ max.toNat := by
  obtain ⟨len, s₁, -, h⟩ := run_bind_eq_ok.mp h
  rw [length_of_readFixedBytes h]
  split
  · next hlt => exact (UInt32.lt_iff_toNat_lt.mp hlt).le
  · exact le_refl _

/-- Every item of a list was read by the reader of the items. -/
theorem forall_of_readItems {α : Type} {read : Reader α} {Q : α → Prop}
    (hread : ∀ s a rest, read s = .ok (a, rest) → Q a) {n : ℕ} {s rest : Bytes} {items : List α}
    (h : readItems read n s = .ok (items, rest)) : items.length = n ∧ ∀ a ∈ items, Q a := by
  induction n generalizing s rest items with
  | zero =>
    obtain ⟨rfl, -⟩ := Prod.mk.inj (Except.ok.inj h)
    exact ⟨rfl, fun a ha => nomatch ha⟩
  | succ n ih =>
    obtain ⟨item, s₁, hitem, h⟩ := run_bind_eq_ok.mp h
    obtain ⟨items', s₂, hitems, h⟩ := run_bind_eq_ok.mp h
    obtain ⟨rfl, -⟩ := Prod.mk.inj (Except.ok.inj h)
    obtain ⟨hlength, hall⟩ := ih hitems
    exact ⟨congrArg (· + 1) hlength, List.forall_mem_cons.mpr ⟨hread s item s₁ hitem, hall⟩⟩

theorem forall_of_readAndVerifySorted {α : Type} {read : Reader α} {Q : α → Prop}
    (hread : ∀ s a rest, read s = .ok (a, rest) → Q a) {count : UInt64} {s rest : Bytes}
    {items : List α} (h : readAndVerifySorted read count s = .ok (items, rest)) :
    items.length ≤ maxArrayLength ∧ ∀ a ∈ items, Q a := by
  unfold readAndVerifySorted at h
  split at h
  · cases h
  · next hcount =>
    obtain ⟨hlength, hall⟩ := forall_of_readItems hread h
    exact ⟨hlength.trans_le (not_lt.mp hcount), hall⟩

end SerLemmas

theorem Output.wellSized_of_read {s rest : Bytes} {o : Output} (h : Output.read s = .ok (o, rest)) :
    o.WellSized := by
  obtain ⟨features, s₁, -, h⟩ := run_bind_eq_ok.mp h
  obtain ⟨commit, s₂, -, h⟩ := run_bind_eq_ok.mp h
  obtain ⟨hash, s₃, hhash, h⟩ := run_bind_eq_ok.mp h
  obtain ⟨proof, s₄, hproof, h⟩ := run_bind_eq_ok.mp h
  obtain ⟨rfl, -⟩ := Prod.mk.inj (Except.ok.inj h)
  obtain ⟨bytes, s₅, hbytes, hproof⟩ := run_bind_eq_ok.mp hproof
  obtain ⟨rfl, -⟩ := Prod.mk.inj (Except.ok.inj hproof)
  exact ⟨length_of_readFixedBytes hhash, length_of_readLimitedVec hbytes, rfl⟩

namespace Transaction

/-- The parts of what is read fit into arrays and have the sizes they are written in. -/
structure Sized (tx : Transaction) : Prop where
  inputs : tx.inputs.length ≤ maxArrayLength
  outputs : tx.outputs.length ≤ maxArrayLength
  wellSized : ∀ o ∈ tx.outputs, o.WellSized

theorem sized_of_deserialize {s : Bytes} {tx : Transaction} (h : deserialize s = .ok tx) :
    tx.Sized := by
  obtain ⟨⟨tx', rest⟩, hread, h⟩ := bind_eq_ok.mp h
  obtain rfl : tx' = tx := Except.ok.inj h
  obtain ⟨fee, s₁, -, hread⟩ := run_bind_eq_ok.mp hread
  obtain ⟨lockHeight, s₂, -, hread⟩ := run_bind_eq_ok.mp hread
  obtain ⟨excessSig, s₃, -, hread⟩ := run_bind_eq_ok.mp hread
  obtain ⟨inputLen, s₄, -, hread⟩ := run_bind_eq_ok.mp hread
  obtain ⟨outputLen, s₅, -, hread⟩ := run_bind_eq_ok.mp hread
  obtain ⟨inputs, s₆, hinputs, hread⟩ := run_bind_eq_ok.mp hread
  obtain ⟨outputs, s₇, houtputs, hread⟩ := run_bind_eq_ok.mp hread
  obtain ⟨rfl, -⟩ := Prod.mk.inj (Except.ok.inj hread)
  obtain ⟨hin, -⟩ := forall_of_readAndVerifySorted (Q := fun _ => True) (fun _ _ _ _ => trivial) hinputs
  obtain ⟨hout, hsized⟩ :=
    forall_of_readAndVerifySorted (fun _ _ _ => Output.wellSized_of_read) houtputs
  exact ⟨hin, hout, hsized⟩

end Transaction

/-! ## The order of the parts -/

section Order

variable {env : Env} {E : Type*} [AddCommGroup E]

namespace Transaction

/-- One transaction is another one in a different order. -/
structure Reordered (tx tx' : Transaction) : Prop where
  inputs : tx'.inputs.Perm tx.inputs
  outputs : tx'.outputs.Perm tx.outputs
  fee : tx'.fee = tx.fee
  lockHeight : tx'.lockHeight = tx.lockHeight
  excessSig : tx'.excessSig = tx.excessSig

theorem reordered_sorted (tx : Transaction) : tx.Reordered (tx.sorted env) :=
  ⟨orderByHash_perm env _ _, orderByHash_perm env _ _, rfl, rfl, rfl⟩

theorem excess_of_reordered (P : Pedersen env.secp E) {tx tx' : Transaction} (h : tx.Reordered tx')
    (overage : ℤ) : P.excess tx' overage = P.excess tx overage := by
  have hin : P.pointSum (tx'.inputs.map (·.commitment)) = P.pointSum (tx.inputs.map (·.commitment)) :=
    BuildLemmas.pointSum_perm P (h.inputs.map _)
  have hout : P.pointSum (tx'.outputs.map (·.commit)) = P.pointSum (tx.outputs.map (·.commit)) :=
    BuildLemmas.pointSum_perm P (h.outputs.map _)
  show P.pointSum (tx'.outputs.map (·.commit)) + overage • P.H
    - P.pointSum (tx'.inputs.map (·.commitment)) = _
  rw [hin, hout]
  rfl

/-- Both have the same kernel. -/
theorem verifySig_of_reordered (P : Pedersen env.secp E) {secp : Secp256K1} (hcaps : secp.caps = .commit)
    {tx tx' : Transaction} (h : tx.Reordered tx') {k : TxKernel}
    (hsig : tx.verifySig env.secp secp = .ok k) : tx'.verifySig env.secp secp = .ok k := by
  obtain ⟨rsum, hsum, hsigned, rfl⟩ := verifySig_eq_ok_iff.mp hsig
  obtain ⟨hproofs, overage, hoverage, hmin, hne, rfl⟩ := (sumCommitments_eq_ok_iff P hcaps).mp hsum
  have hkernel : tx.kernel ⟨P.save (P.excess tx overage.toInt)⟩
      = tx'.kernel ⟨P.save (P.excess tx' overage.toInt)⟩ := by
    rw [kernel, kernel, excess_of_reordered P h, h.fee, h.lockHeight, h.excessSig]
  refine verifySig_eq_ok_iff.mpr ⟨_, (sumCommitments_eq_ok_iff P hcaps).mpr
    ⟨fun o ho => hproofs o (h.outputs.mem_iff.mp ho), overage, ?_, hmin, ?_, rfl⟩, ?_, hkernel⟩
  · show Except.ok tx'.fee.toInt64 = _
    rw [h.fee]
    exact hoverage
  · rw [excess_of_reordered P h]
    exact hne
  · rw [excess_of_reordered P h, h.fee, h.lockHeight, h.excessSig]
    exact hsigned

/-- What is valid is valid in every order of its inputs and outputs. -/
theorem validate_of_perm (P : Pedersen env.secp E) {secp : Secp256K1} (hcaps : secp.caps = .commit)
    {tx tx' : Transaction} (h : tx.Reordered tx') (hvalid : tx.validate env.secp secp = .ok ()) :
    tx'.validate env.secp secp = .ok () := by
  obtain ⟨heven, hmany, hproofs, k, hsig⟩ := validate_eq_ok_iff.mp hvalid
  refine validate_eq_ok_iff.mpr ⟨?_, ?_, fun o ho => hproofs o (h.outputs.mem_iff.mp ho), k,
    verifySig_of_reordered P hcaps h hsig⟩
  · rw [h.fee]
    exact heven
  · rw [h.inputs.length_eq]
    exact hmany

end Transaction

end Order

/-! ## Completed payments -/

variable {env : Env} {E : Type*} [AddCommGroup E]

namespace WalletReceiver

/-- A completed payment is the sender's transaction with one output more and a signature. -/
theorem completePayment_form (P : Honest env.secp E) {kc : Keychain env} {amount : UInt64}
    {blinding : BlindingFactor env.secp} {tx txFinal : Transaction} {keyId : Identifier}
    (h : completePayment kc amount blinding tx keyId = .ok txFinal) :
    ∃ key excessSig, kc.derivedKey keyId = .ok key ∧ excessSig.length ≤ 72 ∧
      txFinal = { tx.withOutput (outputUnder env (amount - recipientFee tx) key) with excessSig } ∧
      txFinal.validate env.secp kc.secp = .ok () := by
  obtain ⟨blind, hbuild, hvalid⟩ := completePayment_eq_ok.mp h
  obtain ⟨ctx, hrun, hbuild⟩ := bind_eq_ok.mp hbuild
  obtain ⟨blindSum, -, hbuild⟩ := bind_eq_ok.mp hbuild
  obtain ⟨msg, -, hbuild⟩ := bind_eq_ok.mp hbuild
  obtain ⟨sig, hsig, hbuild⟩ := bind_eq_ok.mp hbuild
  obtain ⟨excessSig, hder, hbuild⟩ := bind_eq_ok.mp hbuild
  obtain ⟨rfl, -⟩ := Prod.mk.inj (Except.ok.inj hbuild)
  -- the combinators ran one after the other
  rw [List.foldlM_cons, show Build.step _ (Build.initialTx tx) = .ok ⟨kc, tx, BlindSum.new⟩ from rfl,
    ok_bind, List.foldlM_cons, show Build.step ⟨kc, tx, BlindSum.new⟩ (Build.withExcess blinding)
      = .ok ⟨kc, tx, BlindSum.new.addBlindingFactor blinding⟩ from rfl, ok_bind] at hrun
  obtain ⟨ctx₃, hlast, hrun⟩ := foldlM_cons_eq_ok.mp hrun
  obtain rfl := Except.ok.inj hrun
  obtain ⟨append, houtput, -⟩ := bind_eq_ok.mp hlast
  obtain ⟨commit, hcommit, -⟩ := bind_eq_ok.mp houtput
  obtain ⟨key, hkey, -⟩ := bind_eq_ok.mp hcommit
  rw [BuildLemmas.step_output hkey] at hlast
  obtain rfl := Except.ok.inj hlast
  refine ⟨key, excessSig, hkey, ?_, rfl, hvalid⟩
  obtain ⟨sig', der, hsig', hder', hlength, -, -⟩ :=
    P.verifyFromCommit_sign kc.caps_commit msg blindSum.key
  obtain rfl := Except.ok.inj (hsig.symm.trans hsig')
  obtain rfl := Except.ok.inj (hder.symm.trans hder')
  exact hlength

/-- The sender's transaction leaves room for the output of the receiver. -/
def LeavesRoom (env : Env) (partialTx : PartialTx) : Prop :=
  ∀ amount blinding tx, readPartialTx env partialTx = .ok (amount, blinding, tx) →
    tx.outputs.length < maxArrayLength

theorem sized_of_readPartialTx {partialTx : PartialTx} {amount : UInt64}
    {blinding : BlindingFactor env.secp} {tx : Transaction}
    (h : readPartialTx env partialTx = .ok (amount, blinding, tx)) : tx.Sized := by
  obtain ⟨blindBin, -, h⟩ := bind_eq_ok.mp h
  obtain ⟨key, -, h⟩ := bind_eq_ok.mp h
  obtain ⟨txBin, -, h⟩ := bind_eq_ok.mp h
  obtain ⟨transaction, htx, h⟩ := bind_eq_ok.mp h
  obtain ⟨-, -, rfl⟩ : partialTx.amount = amount ∧ _ ∧ transaction = tx := by
    simpa using Except.ok.inj h
  exact Transaction.sized_of_deserialize htx

/-- A completed payment has a wire form. -/
theorem writable_of_completePayment (P : Honest env.secp E) {kc : Keychain env}
    {partialTx : PartialTx} {amount : UInt64} {blinding : BlindingFactor env.secp}
    {tx txFinal : Transaction} {keyId : Identifier}
    (hread : readPartialTx env partialTx = .ok (amount, blinding, tx))
    (hroom : LeavesRoom env partialTx)
    (h : completePayment kc amount blinding tx keyId = .ok txFinal) : txFinal.Writable := by
  have hsized := sized_of_readPartialTx hread
  obtain ⟨key, excessSig, -, hsig, rfl, -⟩ := completePayment_form P h
  have hbuilt := BuildLemmas.builtOutput_outputUnder P (amount - recipientFee tx) key
  refine ⟨le_trans hsig (by decide), hsized.inputs, ?_, fun o ho => ?_⟩
  · show (tx.outputs ++ [outputUnder env (amount - recipientFee tx) key]).length ≤ maxArrayLength
    rw [List.length_append, List.length_singleton]
    exact hroom amount blinding tx hread
  · rcases List.mem_append.mp ho with hold | hnew
    · exact hsized.wellSized o hold
    · obtain rfl := List.mem_singleton.mp hnew
      exact ⟨hbuilt.switchCommitHash, hbuilt.proof_length, hbuilt.plen⟩

/-- What is posted reads back to this transaction, by `Transaction.Read`, and `Transaction.Validate`
accepts it. -/
def ReadsValid (env : Env) (secp : Secp256K1) (posted : TxWrapper) (tx : Transaction) : Prop :=
  ∃ bytes, fromHex posted.txHex = .ok bytes ∧ Transaction.deserialize bytes = .ok tx ∧
    tx.validate env.secp secp = .ok ()

theorem readsValid_txWrapper (P : Honest env.secp E) {kc : Keychain env} {txFinal : Transaction}
    (hwritable : txFinal.Writable) (hvalid : txFinal.validate env.secp kc.secp = .ok ()) :
    ReadsValid env kc.secp (txWrapper env txFinal) (txFinal.sorted env) :=
  ⟨txFinal.serVec env, fromHex_toHex _, Transaction.deserialize_serVec env hwritable,
    Transaction.validate_of_perm P.toPedersen kc.caps_commit (Transaction.reordered_sorted txFinal)
      hvalid⟩

end WalletReceiver

namespace ServerController

open WalletReceiver

/-- What a request has posted. -/
def Stage.posted? (services : Services env) : Stage env → Option TxWrapper
  | .posted credit => (complete services credit).toOption.map (txWrapper env)
  | .answered (some credit) _ => (complete services credit).toOption.map (txWrapper env)
  | _ => none

section Steps

variable (services : Services env) (s : ServerState)

theorem posted_query (script : Checker.RefreshScript) :
    (query services script s).1.posted? services = none ∧
      (query services script s).2.posted = s.posted := by
  unfold query
  rcases (readWallet script.readFault (Checker.snapshot services.kc)).exec s.world
    with ⟨e | snapshot, w⟩
  · exact ⟨rfl, rfl⟩
  cases script.answer with
  | unreachable | failureStatus | malformed => exact ⟨rfl, rfl⟩
  | outputs outputs =>
    simp only
    cases Checker.apiOutputs outputs with
    | error e => exact ⟨rfl, rfl⟩
    | ok answers => exact ⟨rfl, rfl⟩

theorem posted_applyAnswers (attempt : Attempt) (snapshot : Checker.Snapshot)
    (answers : Dictionary String ApiOutput) :
    (applyAnswers services attempt snapshot answers s).1.posted? services = none ∧
      (applyAnswers services attempt snapshot answers s).2.posted = s.posted := by
  unfold applyAnswers
  rcases (withWallet services.config attempt (Checker.applied snapshot answers)).exec s.world
    with ⟨e | ⟨⟩, w⟩
  · exact ⟨rfl, rfl⟩
  · exact ⟨rfl, rfl⟩

theorem posted_credit (attempt : Attempt) (partialTx : PartialTx) :
    (credit services attempt partialTx s).1.posted? services = none ∧
      (credit services attempt partialTx s).2.posted = s.posted := by
  unfold credit
  rcases readPartialTx env partialTx with e | ⟨amount, blinding, tx⟩
  · exact ⟨rfl, rfl⟩
  simp only
  split
  · exact ⟨rfl, rfl⟩
  rcases (withWallet services.config attempt (addReceived services.kc
    (amount - recipientFee tx))).exec s.world with ⟨e | ⟨keyId, derivation⟩, w⟩
  · exact ⟨rfl, rfl⟩
  · exact ⟨rfl, rfl⟩

end Steps

/-- A step posts what its request has to post, or nothing. -/
theorem posted_move (services : Services env) (request : Request) (l : Stage env) (s : ServerState) :
    ((move services request l s).1.posted? services = l.posted? services ∧
      (move services request l s).2.posted = s.posted) ∨
    ∃ t, l.posted? services = none ∧ (move services request l s).1.posted? services = some t ∧
      (move services request l s).2.posted = s.posted ++ [t] := by
  have hsame : ∀ l : Stage env, (l.posted? services = l.posted? services ∧ s.posted = s.posted) ∨
      ∃ t, l.posted? services = none ∧ l.posted? services = some t ∧ s.posted = s.posted ++ [t] :=
    fun _ => .inl ⟨rfl, rfl⟩
  cases request with
  | info script =>
    cases l with
    | arrived => exact .inl (posted_query services s script.refresh)
    | queried snapshot answers => exact .inl (posted_applyAnswers services s _ snapshot answers)
    | refreshed result =>
      simp only [move, report]
      rcases (readWallet script.readFault fun walletData =>
        .ok (Info.summary services.kc.rootKeyId script.tip walletData)).exec s.world
          with ⟨e | text, w⟩ <;> exact .inl ⟨rfl, rfl⟩
    | sending | credited | posted | answered => exact hsame _
  | send script =>
    cases l with
    | arrived => exact .inl (posted_query services s script.refresh)
    | queried snapshot answers => exact .inl (posted_applyAnswers services s _ snapshot answers)
    | refreshed result =>
      simp only [move]
      cases script.tip with
      | error e => exact .inl ⟨rfl, rfl⟩
      | ok height => exact .inl ⟨rfl, rfl⟩
    | sending height phase =>
      simp only [move, send]
      rcases phase.result with _ | (e | ⟨⟩) <;> exact .inl ⟨rfl, rfl⟩
    | credited | posted | answered => exact hsame _
  | receiveTransaction body attempt push =>
    cases l with
    | arrived =>
      rcases body with e | _ | partialTx
      · exact .inl ⟨rfl, rfl⟩
      · exact .inl ⟨rfl, rfl⟩
      · exact .inl (posted_credit services s attempt partialTx)
    | credited credit =>
      simp only [move, post]
      cases hbuilt : complete services credit with
      | error e => exact .inl ⟨by simp [Stage.posted?, hbuilt, Except.toOption], rfl⟩
      | ok finalTx =>
        exact .inr ⟨txWrapper env finalTx, rfl, by simp [Stage.posted?, hbuilt, Except.toOption], rfl⟩
    | posted credit =>
      simp only [move, acknowledge]
      rcases push.result with e | ⟨⟩ <;> exact .inl ⟨rfl, rfl⟩
    | queried | refreshed | sending | answered => exact hsame _
  | receiveCoinbase body attempt =>
    cases l with
    | arrived =>
      simp only [move, answer]
      rcases body with e | _ | blockFees
      · exact .inl ⟨rfl, rfl⟩
      · exact .inl ⟨rfl, rfl⟩
      · simp only [CoinbaseHandler.handle]
        rcases (CoinbaseHandler.buildCoinbase services.config services.kc attempt
          blockFees).exec s.world with ⟨e | cb, w⟩ <;> exact .inl ⟨rfl, rfl⟩
    | queried | refreshed | sending | credited | posted | answered => exact hsame _

/-! ## Runs -/

section Runs

variable {ι : Type*} [DecidableEq ι] {services : Services env} {requests : ι → Request}
  {p q : Pool ι ServerState (Stage env)} {history : List (Option ι)}

/-- What was posted are the posts of the requests, one for each that has completed its payment. -/
theorem logged_of_run (hstart : ∀ i, p.locals i = .arrived) (hempty : p.shared.posted = [])
    (hrun : Run (Serves services requests) p history q) :
    Pool.Logged ServerState.posted (Stage.posted? services) q := by
  refine Pool.logged_of_run (fun i r l s hown => ?_) (fun s s' houter => ?_) hrun
    ⟨[], List.nodup_nil, fun i => ?_, by simp [hempty]⟩
  · have h := posted_move services (requests i) (r.locals i) r.shared
    rw [show move services (requests i) (r.locals i) r.shared = (l, s) from hown.2] at h
    exact h
  · obtain ⟨⟩ := houter
    rfl
  · rw [hstart i]
    simp [Stage.posted?]

/-- The payment of a request, completed as it was posted. -/
def Completes (services : Services env) (request : Request) (posted : TxWrapper)
    (finalTx : Transaction) : Prop :=
  ∃ partialTx attempt push amount blinding tx keyId,
    request = .receiveTransaction (.ok (some partialTx)) attempt push ∧
      readPartialTx env partialTx = .ok (amount, blinding, tx) ∧
      completePayment services.kc amount blinding tx keyId = .ok finalTx ∧
      posted = txWrapper env finalTx

theorem completes_of_posted {request : Request} {l : Stage env} {t : TxWrapper}
    (hfits : l.Fits services request) (h : l.posted? services = some t) :
    ∃ finalTx, Completes services request t finalTx := by
  have hcredit : ∀ credit : Credit env, credit.Of request →
      (complete services credit).toOption.map (txWrapper env) = some t →
      ∃ finalTx, Completes services request t finalTx := by
    rintro credit ⟨partialTx, attempt, push, hrequest, hread⟩ hposted
    obtain ⟨finalTx, hbuilt, rfl⟩ := Option.map_eq_some_iff.mp hposted
    have hcomplete : complete services credit = .ok finalTx := by
      cases hc : complete services credit with
      | error e =>
        rw [hc] at hbuilt
        cases hbuilt
      | ok tx =>
        rw [hc] at hbuilt
        rw [Option.some.inj hbuilt]
    exact ⟨finalTx, partialTx, attempt, push, _, _, _, _, hrequest, hread, hcomplete, rfl⟩
  cases l with
  | arrived | queried | refreshed | sending | credited => cases h
  | posted credit => exact hcredit credit hfits.1 h
  | answered credit response =>
    cases credit with
    | none => cases h
    | some credit => exact hcredit credit hfits.1 h

/-- A payment that was acknowledged was posted. -/
theorem posted_of_acknowledged {body : Except Exn (Option PartialTx)} {attempt : Attempt}
    {push : Push} {l : Stage env} (hfits : l.Fits services (.receiveTransaction body attempt push))
    (hack : l.response? = some (.ok .ok)) : (l.posted? services).isSome := by
  cases l with
  | arrived | queried | refreshed | sending | credited | posted => cases hack
  | answered credit response =>
    obtain rfl : response = .ok .ok := Option.some.inj hack
    cases credit with
    | none =>
      obtain ⟨script, hscript⟩ := hfits
      cases hscript
    | some credit =>
      obtain ⟨-, finalTx, hbuilt⟩ := hfits.2 _ rfl
      simp [Stage.posted?, hbuilt, Except.toOption]

/-- Every request posts at most once and an acknowledged payment was posted; what is posted is the
payment of its request, completed, and reads back to a transaction that passes validation. -/
theorem posts_valid (P : Honest env.secp E) (hstart : ∀ i, p.locals i = .arrived)
    (hempty : p.shared.posted = [])
    (hroom : ∀ i partialTx attempt push,
      requests i = .receiveTransaction (.ok (some partialTx)) attempt push → LeavesRoom env partialTx)
    (hrun : Run (Serves services requests) p history q) :
    ∃ order : List ι, order.Nodup ∧
      (∀ i body attempt push, requests i = .receiveTransaction body attempt push →
        (q.locals i).response? = some (.ok .ok) → i ∈ order) ∧
      List.Forall₂ (fun i t => ∃ finalTx, Completes services (requests i) t finalTx ∧
        ReadsValid env services.kc.secp t (finalTx.sorted env)) order q.shared.posted := by
  have hfits := fits_of_run hstart hrun
  obtain ⟨order, hnodup, hmem, hposted⟩ := (logged_of_run hstart hempty hrun).exists_order
  refine ⟨order, hnodup, fun i body attempt push hrequest hack => (hmem i).mpr ?_,
    hposted.imp fun i t hi => ?_⟩
  · have hfit := hfits i
    rw [hrequest] at hfit
    exact posted_of_acknowledged hfit hack
  · obtain ⟨finalTx, hcompletes⟩ := completes_of_posted (hfits i) hi
    refine ⟨finalTx, hcompletes, ?_⟩
    obtain ⟨partialTx, attempt, push, amount, blinding, tx, keyId, hrequest, hread, hbuilt, rfl⟩ :=
      hcompletes
    obtain ⟨key, excessSig, -, -, -, hvalid⟩ := completePayment_form P hbuilt
    exact readsValid_txWrapper P
      (writable_of_completePayment P hread (hroom i partialTx attempt push hrequest) hbuilt) hvalid

end Runs

/-! ### Over pairs -/

/-- What is built is read as it is on the wire. -/
theorem readPartialTx_build (amount : UInt64) (blind : BlindingFactor env.secp) (tx : Transaction) :
    readPartialTx env (buildPartialTx env amount blind tx)
      = (do
          let transaction ← Transaction.deserialize (tx.serVec env)
          return (amount, blind, transaction)) := by
  simp only [readPartialTx, buildPartialTx, fromHex_toHex, ok_bind, SecretKey.fromSlice_value]

theorem leavesRoom_pairPartialTx : LeavesRoom Pairs.env pairPartialTx := by
  have hsmall : (pairSent.toOption.any fun built =>
      (Transaction.deserialize (built.1.serVec Pairs.env)).toOption.all fun transaction =>
        decide (transaction.outputs.length ≤ 1)) = true := by decide +kernel
  intro amount blinding tx hread
  unfold pairPartialTx at hread
  cases hsent : pairSent with
  | error e =>
    rw [hsent] at hsmall
    cases hsmall
  | ok built =>
    obtain ⟨sent, blind⟩ := built
    rw [hsent] at hsmall hread
    simp only [Except.toOption, Option.any_some] at hsmall hread
    rw [readPartialTx_build] at hread
    obtain ⟨transaction, htx, hread⟩ := bind_eq_ok.mp hread
    obtain ⟨-, -, rfl⟩ : (9000000 : UInt64) = amount ∧ blind = blinding ∧ transaction = tx := by
      simpa using Except.ok.inj hread
    rw [htx] at hsmall
    exact lt_of_le_of_lt (of_decide_eq_true hsmall) (by decide)

theorem posts_valid_pairs :
    ∃ order : List Bool, order.Nodup ∧
      (∀ i body attempt push, pairRequests i = .receiveTransaction body attempt push →
        (pairServed.locals i).response? = some (.ok .ok) → i ∈ order) ∧
      List.Forall₂ (fun i t => ∃ finalTx, Completes pairServices (pairRequests i) t finalTx ∧
        ReadsValid Pairs.env pairServices.kc.secp t (finalTx.sorted Pairs.env)) order
          pairServed.shared.posted := by
  refine posts_valid Pairs.honest (fun _ => rfl) rfl (fun i partialTx attempt push hrequest => ?_)
    run_pairServed
  cases i with
  | false =>
    obtain ⟨hbody, -, -⟩ := Request.receiveTransaction.inj hrequest
    rw [← Option.some.inj (Except.ok.inj hbody)]
    exact leavesRoom_pairPartialTx
  | true => cases hrequest

end ServerController

end GrinDotnet
