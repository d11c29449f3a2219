import Mathlib.Algebra.Ring.Parity
import GrinDotnet.Core.Block
import GrinDotnet.Keychain.PairKeychain

/-!
# Difficulty over a sequence of calls

What a call of `Difficulty.From_hash` answers, and what it leaves in the static array it works on.

Results:
1. `targetAfter_val`: the array after any number of calls.
2. `exact_iff`: the calls that answer what they would answer first in the process.
3. `historyFree_iff`: the sequences in which every call does.
-/

namespace GrinDotnet

open BigEndian

variable {env : Env} {target : Fixed 8}

namespace Difficulty

/-- What `From_hash` divides by: the first eight bytes of the hash. -/
def leading (hash : Bytes) : ℕ := asNat (hash.take 8)

/-- What the declared `MaxTarget` spells. -/
def maxTargetNum : ℕ := 0x0fffffffffffffff

/-- What `MaxTarget` spells the other way round. -/
def reversedTargetNum : ℕ := 0xffffffffffffff0f

theorem asNat_maxTarget : asNat maxTarget.1 = maxTargetNum := by decide

theorem asNat_reverse_maxTarget : asNat maxTarget.1.reverse = reversedTargetNum := by decide

theorem leading_lt (hash : Bytes) : leading hash < 2 ^ 64 := by
  have hlt := asNat_lt (hash.take 8)
  have hlen : (hash.take 8).length ≤ 8 := List.length_take_le 8 hash
  calc
    leading hash < 256 ^ (hash.take 8).length := hlt
    _ ≤ 256 ^ 8 := Nat.pow_le_pow_right (by norm_num) hlen
    _ = 2 ^ 64 := by norm_num

theorem asNat_target_lt (target : Fixed 8) : asNat target.1 < 2 ^ 64 := by
  have hlt := asNat_lt target.1
  rw [target.2] at hlt
  exact lt_of_lt_of_le hlt (by norm_num)

theorem ofNat_leading_eq_zero_iff {hash : Bytes} :
    UInt64.ofNat (leading hash) = 0 ↔ leading hash = 0 := by
  constructor
  · intro h
    have hnat := congrArg UInt64.toNat h
    rwa [UInt64.toNat_ofNat_of_lt' (leading_lt hash)] at hnat
  · intro h
    rw [h]
    rfl

/-- The array is reversed whatever comes of the division. -/
@[simp] theorem fromHash_snd (target : Fixed 8) (hash : Bytes) :
    (fromHash target hash).2.1 = target.1.reverse := by
  dsimp only [fromHash]
  split <;> rfl

theorem fromHash_of_zero {hash : Bytes} (h : leading hash = 0) :
    (fromHash target hash).1 = .error .divideByZero := by
  have hzero : UInt64.ofNat (asNat (hash.take 8)) = 0 := ofNat_leading_eq_zero_iff.mpr h
  simp only [fromHash, if_pos hzero]

theorem fromHash_of_ne {hash : Bytes} (h : leading hash ≠ 0) :
    (fromHash target hash).1 = .ok ⟨UInt64.ofNat (asNat target.1 / leading hash)⟩ := by
  have hne : UInt64.ofNat (asNat (hash.take 8)) ≠ 0 := fun hz => h (ofNat_leading_eq_zero_iff.mp hz)
  have hdiv : UInt64.ofNat (asNat target.1) / UInt64.ofNat (leading hash) =
      UInt64.ofNat (asNat target.1 / leading hash) := by
    have htarget := asNat_target_lt target
    refine UInt64.toNat_inj.mp ?_
    rw [UInt64.toNat_div, UInt64.toNat_ofNat_of_lt' htarget,
      UInt64.toNat_ofNat_of_lt' (leading_lt hash),
      UInt64.toNat_ofNat_of_lt' (lt_of_le_of_lt (Nat.div_le_self _ _) htarget)]
  simp only [fromHash, if_neg hne]
  rw [← hdiv]
  rfl

/-- The two readings of the array give one quotient only where both are zero. -/
theorem reversedTargetNum_div_eq_iff {num : ℕ} (h : num ≠ 0) :
    reversedTargetNum / num = maxTargetNum / num ↔ reversedTargetNum < num := by
  have hpos : 0 < num := Nat.pos_of_ne_zero h
  have hle : maxTargetNum < reversedTargetNum := by decide
  constructor
  · intro heq
    by_contra hge
    rw [not_lt] at hge
    by_cases hsmall : num ≤ maxTargetNum
    · -- the readings are further apart than the divisor
      have hfar : maxTargetNum + num ≤ reversedTargetNum := by
        have : maxTargetNum + maxTargetNum ≤ reversedTargetNum := by decide
        exact le_trans (Nat.add_le_add_left hsmall _) this
      have hstep := Nat.div_le_div_right (c := num) hfar
      rw [Nat.add_div_right _ hpos, heq] at hstep
      exact Nat.not_succ_le_self _ hstep
    · have hzero : maxTargetNum / num = 0 := Nat.div_eq_of_lt (not_le.mp hsmall)
      have hone : 0 < reversedTargetNum / num := Nat.div_pos hge hpos
      rw [heq, hzero] at hone
      exact lt_irrefl _ hone
  · intro hgt
    rw [Nat.div_eq_of_lt hgt, Nat.div_eq_of_lt (lt_trans hle hgt)]

end Difficulty

/-! ## The difficulty of a proof -/

namespace Proof

/-- Cloning takes as many nonces as there are, so writing the clone does not run past them. -/
theorem write_clone {pow clone : Proof} (h : pow.clone = .ok clone) :
    ∃ bytes, clone.write = .ok bytes := by
  unfold Proof.clone at h
  split at h
  · cases h
  · next nonces _ =>
    cases h
    refine ⟨_, if_neg ?_⟩
    rw [UInt32.toNat_ofNat', not_lt]
    exact Nat.mod_le _ _

theorem toDifficulty_of_write {pow : Proof} {bytes : Bytes} (hwrite : pow.write = .ok bytes) :
    pow.toDifficulty env target = Difficulty.fromHash target (hashOf env bytes) := by
  simp only [toDifficulty, hwrite]

theorem toDifficulty_eq_ok {pow : Proof} {bytes : Bytes} (hwrite : pow.write = .ok bytes)
    (hleading : Difficulty.leading (hashOf env bytes) ≠ 0) (target : Fixed 8) :
    ∃ difficulty after, pow.toDifficulty env target = (.ok difficulty, after) := by
  rw [toDifficulty_of_write hwrite]
  exact ⟨_, _, Prod.ext (Difficulty.fromHash_of_ne hleading) rfl⟩

end Proof

namespace Block

variable {prev : BlockHeader} {txs : List Transaction} {kernels : List TxKernel} {pow : Proof}
  (now : Int64) (rewardOut : Output) (rewardKern : TxKernel)

/-- The new header's total is the old one and the difficulty of the old proof, in one word. -/
theorem withReward_of_ok {difficulty : Difficulty} {after : Fixed 8}
    (hkernels : txs.mapM (Transaction.verifySig env.secp (Secp256K1.withCaps .commit)) =
      .ok kernels)
    (hclone : prev.pow.clone = .ok pow)
    (hdiff : pow.toDifficulty env target = (.ok difficulty, after)) :
    ∃ b, withReward env now prev txs rewardOut rewardKern target = (.ok b, after) ∧
      b.header.pow = Proof.zero automatedTestingProofSize ∧
      b.header.totalDifficulty.num = difficulty.num + prev.totalDifficulty.num := by
  simp only [withReward, hkernels, hclone, hdiff]
  -- the new header has a proof of zeroes, which is whole
  exact ⟨_, Prod.ext (compact_of_whole (Proof.whole_zero _)) rfl, rfl, rfl⟩

theorem withReward_of_error {e : Exn} {after : Fixed 8}
    (hkernels : txs.mapM (Transaction.verifySig env.secp (Secp256K1.withCaps .commit)) =
      .ok kernels)
    (hclone : prev.pow.clone = .ok pow)
    (hdiff : pow.toDifficulty env target = (.error e, after)) :
    withReward env now prev txs rewardOut rewardKern target = (.error e, after) := by
  simp only [withReward, hkernels, hclone, hdiff]

end Block

/-! ## Sequences of calls -/

/-- A call that gets to `Difficulty.From_hash`, directly or on the way to something else. -/
inductive DifficultyCall
  | fromHash (hash : Fixed 32)
  | toDifficulty (pow : Proof)
  | withReward (now : Int64) (prev : BlockHeader) (txs : List Transaction) (rewardOut : Output)
      (rewardKern : TxKernel)

namespace DifficultyCall

/-- The hash it hands to `From_hash`, when it gets there. -/
def hashed (env : Env) : DifficultyCall → Except Exn Bytes
  | fromHash hash => .ok hash.1
  | toDifficulty pow => do
    let bytes ← pow.write
    return hashOf env bytes
  | withReward _ prev txs _ _ => do
    let _ ← txs.mapM (Transaction.verifySig env.secp (Secp256K1.withCaps .commit))
    let pow ← prev.pow.clone
    let bytes ← pow.write
    return hashOf env bytes

/-- The call on the array it finds: the difficulty that comes of it, and the array as it leaves it.
The difficulty of a block is what its total has on top of the previous one. -/
def run (env : Env) (target : Fixed 8) : DifficultyCall → Except Exn Difficulty × Fixed 8
  | fromHash hash => Difficulty.fromHash target hash.1
  | toDifficulty pow => pow.toDifficulty env target
  | withReward now prev txs rewardOut rewardKern =>
    match Block.withReward env now prev txs rewardOut rewardKern target with
    | (.error e, after) => (.error e, after)
    | (.ok b, after) => (.ok ⟨b.header.totalDifficulty.num - prev.totalDifficulty.num⟩, after)

/-- The number the call divides by, 0 when it does not get there. -/
def num (env : Env) (call : DifficultyCall) : ℕ :=
  match call.hashed env with
  | .error _ => 0
  | .ok hash => Difficulty.leading hash

/-- However it is made, the call is one of `From_hash`. -/
theorem run_eq_fromHash {call : DifficultyCall} {hash : Bytes} (h : call.hashed env = .ok hash) :
    call.run env target = Difficulty.fromHash target hash := by
  cases call with
  | fromHash =>
    cases h
    rfl
  | toDifficulty pow =>
    obtain ⟨bytes, hwrite, hhash⟩ := Outcome.bind_eq_ok.mp h
    cases hhash
    exact Proof.toDifficulty_of_write hwrite
  | withReward now prev txs rewardOut rewardKern =>
    obtain ⟨kernels, hkernels, hrest⟩ := Outcome.bind_eq_ok.mp h
    obtain ⟨pow, hclone, hrest⟩ := Outcome.bind_eq_ok.mp hrest
    obtain ⟨bytes, hwrite, hhash⟩ := Outcome.bind_eq_ok.mp hrest
    cases hhash
    have hpow : pow.toDifficulty env target = Difficulty.fromHash target (hashOf env bytes) :=
      Proof.toDifficulty_of_write hwrite
    cases hdiff : pow.toDifficulty env target with
    | mk answer after =>
      rw [← hpow, hdiff]
      cases answer with
      | error e =>
        simp only [run, Block.withReward_of_error _ _ _ hkernels hclone hdiff]
      | ok difficulty =>
        obtain ⟨b, hb, -, htotal⟩ :=
          Block.withReward_of_ok now rewardOut rewardKern hkernels hclone hdiff
        simp only [run, hb, htotal, UInt64.add_sub_cancel]

theorem exists_hash {call : DifficultyCall} (h : call.num env ≠ 0) :
    ∃ hash, call.hashed env = .ok hash ∧ call.num env = Difficulty.leading hash := by
  unfold num at h ⊢
  split at h
  · exact absurd rfl h
  · next hash hhash => exact ⟨hash, hhash, rfl⟩

/-- One call turns the array round. -/
theorem run_snd {call : DifficultyCall} (h : call.num env ≠ 0) (target : Fixed 8) :
    (call.run env target).2.1 = target.1.reverse := by
  obtain ⟨hash, hhash, -⟩ := exists_hash h
  rw [run_eq_fromHash hhash, Difficulty.fromHash_snd]

/-- One call divides what it finds in the array. -/
theorem run_fst {call : DifficultyCall} (h : call.num env ≠ 0) (target : Fixed 8) :
    (call.run env target).1 = .ok ⟨UInt64.ofNat (asNat target.1 / call.num env)⟩ := by
  obtain ⟨hash, hhash, hnum⟩ := exists_hash h
  rw [hnum] at h
  rw [run_eq_fromHash hhash, hnum, Difficulty.fromHash_of_ne h]

/-- The static array after calls one after the other, from its declared contents. -/
def targetAfter (env : Env) (calls : List DifficultyCall) : Fixed 8 :=
  calls.foldl (fun target call => (call.run env target).2) Difficulty.maxTarget

/-- After some calls, one more leaves the array with its declared contents. -/
def Keeps (env : Env) (before : List DifficultyCall) (call : DifficultyCall) : Prop :=
  targetAfter env (before ++ [call]) = Difficulty.maxTarget

/-- After some calls, one more answers the quotient of the declared target. -/
def Exact (env : Env) (before : List DifficultyCall) (call : DifficultyCall) : Prop :=
  (call.run env (targetAfter env before)).1 =
    .ok ⟨UInt64.ofNat (Difficulty.maxTargetNum / call.num env)⟩

/-- The calls do not notice each other. -/
def HistoryFree (env : Env) (calls : List DifficultyCall) : Prop :=
  ∀ before call later, calls = before ++ call :: later →
    Keeps env before call ∧ Exact env before call

/-- Every call turns the array round once more. -/
theorem targetAfter_val {calls : List DifficultyCall} (h : ∀ call ∈ calls, call.num env ≠ 0) :
    (targetAfter env calls).1 = List.reverse^[calls.length] Difficulty.maxTarget.1 := by
  induction calls using List.reverseRecOn with
  | nil => rfl
  | append_singleton calls call ih =>
    have hcall : call.num env ≠ 0 := h call (by simp)
    have hbefore := ih fun c hc => h c (by simp [hc])
    rw [targetAfter, List.foldl_append, List.foldl_cons, List.foldl_nil,
      DifficultyCall.run_snd hcall, List.length_append, List.length_singleton,
      Function.iterate_succ_apply', ← hbefore]
    rfl

theorem targetAfter_of_even {calls : List DifficultyCall} (h : ∀ call ∈ calls, call.num env ≠ 0)
    (heven : Even calls.length) : (targetAfter env calls).1 = Difficulty.maxTarget.1 := by
  rw [targetAfter_val h, List.reverse_involutive.iterate_even heven]
  rfl

theorem targetAfter_of_odd {calls : List DifficultyCall} (h : ∀ call ∈ calls, call.num env ≠ 0)
    (hodd : Odd calls.length) : (targetAfter env calls).1 = Difficulty.maxTarget.1.reverse := by
  rw [targetAfter_val h, List.reverse_involutive.iterate_odd hodd]

section Call

variable {before : List DifficultyCall} {call : DifficultyCall}
  (hbefore : ∀ c ∈ before, c.num env ≠ 0) (hcall : call.num env ≠ 0)

include hbefore hcall

/-- The array has its declared contents after every second call. -/
theorem keeps_iff : Keeps env before call ↔ Odd before.length := by
  have hall : ∀ c ∈ before ++ [call], c.num env ≠ 0 := by
    intro c hc
    rcases List.mem_append.mp hc with hc | hc
    · exact hbefore c hc
    · rw [List.mem_singleton.mp hc]
      exact hcall
  have hlen : (before ++ [call]).length = before.length + 1 := by simp
  constructor
  · intro hkeeps
    by_contra heven
    rw [Nat.not_odd_iff_even] at heven
    have hodd : Odd (before ++ [call]).length := hlen ▸ heven.add_one
    have hval := targetAfter_of_odd hall hodd
    rw [hkeeps] at hval
    exact absurd hval (by decide)
  · intro hodd
    exact Subtype.ext (targetAfter_of_even hall (hlen ▸ hodd.add_one))

/-- A call that finds the array turned round is right only where both quotients are zero. -/
theorem exact_iff :
    Exact env before call ↔ Even before.length ∨ Difficulty.reversedTargetNum < call.num env := by
  have hnum : ∀ n, n < 2 ^ 64 → (UInt64.ofNat (n / call.num env)).toNat = n / call.num env :=
    fun n hn => UInt64.toNat_ofNat_of_lt' (lt_of_le_of_lt (Nat.div_le_self _ _) hn)
  rw [Exact, DifficultyCall.run_fst hcall]
  rcases Nat.even_or_odd before.length with heven | hodd
  · rw [targetAfter_of_even hbefore heven, Difficulty.asNat_maxTarget]
    simp [heven]
  · rw [targetAfter_of_odd hbefore hodd, Difficulty.asNat_reverse_maxTarget,
      ← Difficulty.reversedTargetNum_div_eq_iff hcall]
    have hne : ¬ Even before.length := Nat.not_even_iff_odd.mpr hodd
    simp only [hne, false_or, Except.ok.injEq, Difficulty.mk.injEq]
    rw [← UInt64.toNat_inj, hnum _ (by decide), hnum _ (by decide)]

end Call

/-- No call can be made without being noticed by a later one, and which ones it spoils. -/
theorem historyFree_iff {calls : List DifficultyCall} (h : ∀ call ∈ calls, call.num env ≠ 0) :
    (HistoryFree env calls ↔ calls = []) ∧
      ∀ before call later, calls = before ++ call :: later →
        (Keeps env before call ↔ Odd before.length) ∧
        (Exact env before call ↔
          Even before.length ∨ Difficulty.reversedTargetNum < call.num env) := by
  have hcalls : ∀ before call later, calls = before ++ call :: later →
      (∀ c ∈ before, c.num env ≠ 0) ∧ call.num env ≠ 0 := by
    rintro before call later rfl
    exact ⟨fun c hc => h c (by simp [hc]), h call (by simp)⟩
  refine ⟨⟨fun hfree => ?_, ?_⟩, fun before call later hsplit => ?_⟩
  · -- the first call already leaves the array turned round
    cases calls with
    | nil => rfl
    | cons call later =>
      obtain ⟨hbefore, hcall⟩ := hcalls [] call later rfl
      have hkeeps := (hfree [] call later rfl).1
      exact absurd ((keeps_iff hbefore hcall).mp hkeeps) (by simp)
  · rintro rfl before call later hsplit
    exact absurd hsplit (by simp)
  · obtain ⟨hbefore, hcall⟩ := hcalls before call later hsplit
    exact ⟨keeps_iff hbefore hcall, exact_iff hbefore hcall⟩

/-- The hash that spells one in its first eight bytes. -/
def oneHash : Fixed 32 := ⟨ofNat 8 1 ++ List.replicate 24 0, by simp⟩

/-- Eight nonces, of which the hash over pairs does not begin with zeroes. -/
def pairProof : Proof := ⟨some (List.replicate 8 1), 8⟩

/-- The three ways to get to `From_hash`. -/
def threeCalls : List DifficultyCall :=
  [.fromHash oneHash, .toDifficulty pairProof,
    .withReward 0 { BlockHeader.default 0 with pow := pairProof } []
      ⟨0, ⟨Pairs.save 0 0⟩, ⟨[]⟩, ⟨[], 0⟩⟩ ⟨0, 0, 0, ⟨Pairs.save 0 0⟩, []⟩]

theorem historyFree_iff_pairs :
    ¬ HistoryFree Pairs.env threeCalls ∧
      ¬ Exact Pairs.env [.fromHash oneHash] (.toDifficulty pairProof) := by
  have hnum : ∀ call ∈ threeCalls, call.num Pairs.env ≠ 0 := by decide +kernel
  have h := historyFree_iff hnum
  refine ⟨fun hfree => absurd (h.1.mp hfree) (by simp [threeCalls]), fun hexact => ?_⟩
  have hcall := ((h.2 [.fromHash oneHash] (.toDifficulty pairProof) _ rfl).2.mp hexact)
  exact absurd hcall (by decide +kernel)

/-- The second of two equal calls gets another answer. -/
theorem second_call_differs :
    (∀ call ∈ [DifficultyCall.fromHash oneHash, .fromHash oneHash], call.num Pairs.env ≠ 0) ∧
      (targetAfter Pairs.env [.fromHash oneHash]).1 =
        [0xff, 0xff, 0xff, 0xff, 0xff, 0xff, 0xff, 0x0f] ∧
      ((DifficultyCall.fromHash oneHash).run Pairs.env (targetAfter Pairs.env [])).1 =
        .ok ⟨0x0fffffffffffffff⟩ ∧
      ((DifficultyCall.fromHash oneHash).run Pairs.env
        (targetAfter Pairs.env [.fromHash oneHash])).1 = .ok ⟨0xffffffffffffff0f⟩ ∧
      ¬ HistoryFree Pairs.env [.fromHash oneHash, .fromHash oneHash] := by
  refine ⟨by decide +kernel, by decide +kernel, by decide +kernel, by decide +kernel, fun h => ?_⟩
  have hexact := (h [.fromHash oneHash] (.fromHash oneHash) [] rfl).2
  exact absurd hexact (by unfold Exact; decide +kernel)

end DifficultyCall

end GrinDotnet
