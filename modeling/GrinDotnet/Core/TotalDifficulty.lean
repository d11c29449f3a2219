import GrinDotnet.Core.Difficulty
import GrinDotnet.Lib.Run

/-!
# The total difficulty along a chain

`Block.with_reward` on one header after the other, `MaxTarget` as it is declared. Every header it
builds has a proof of zeroes, so only the first one's nonces make a difference.

Results:
1. `accumulates_iff_header`: the headers on which no call divides by zero and every one adds exactly.
2. `accumulates_iff`: how long a chain can grow on such headers.
-/

namespace GrinDotnet

open BigEndian Outcome

variable {env : Env}

/-! ## What a transaction's signature can raise -/

section Raises

variable {N : Native} {secp : Secp256K1} {P : Exn → Prop}

/-- The checks of commitments, proofs and signatures raise plain exceptions. -/
theorem raises_verifyFromCommit (hP : ∀ message, P (.exception message)) {msg : Message}
    {sig : Signiture} {commit : Commitment} :
    Raises P (secp.verifyFromCommit N msg sig commit) := by
  have hverify : ∀ key, Raises P (secp.verify N msg sig key) := by
    intro key
    unfold Secp256K1.verify
    split
    · exact raises_error.mpr (hP _)
    split
    · exact raises_error.mpr (hP _)
    split
    · exact raises_ok _
    · exact raises_error.mpr (hP _)
  have hkey : ∀ data, Raises P (PublicKey.fromSlice N data) := by
    intro data
    unfold PublicKey.fromSlice
    split
    · exact raises_ok _
    · exact raises_error.mpr (hP _)
  unfold Secp256K1.verifyFromCommit
  split
  · refine Raises.bind ?_ fun pubkeys => ?_
    · exact (hkey _).bind fun _ => (hkey _).bind fun _ => raises_pure _
    · split
      · exact raises_ok _
      · exact hverify _
  · exact raises_error.mpr (hP _)

theorem raises_sumCommitments (hP : ∀ message, P (.exception message)) (hoverflow : P .overflow)
    {α : Type} [ICommitted α] {committed : α} (hoverage : Raises P (ICommitted.overage committed)) :
    Raises P (sumCommitments N secp committed) := by
  have hsum : ∀ positive negative, Raises P (Secp256K1.commitSum N positive negative) := by
    intro positive negative
    unfold Secp256K1.commitSum
    split
    · exact raises_ok _
    · exact raises_error.mpr (hP _)
  have hproof : ∀ o : Output, Raises P (o.verifyProof N) := by
    intro o
    refine Raises.bind ?_ fun _ => raises_pure _
    unfold Secp256K1.verifyRangeProof
    split
    · exact raises_ok _
    · exact raises_error.mpr (hP _)
  have hvalue : ∀ value, Raises P (secp.commitValue N value) := by
    intro value
    unfold Secp256K1.commitValue
    split
    · exact raises_ok _
    · exact raises_error.mpr (hP _)
  have habs : ∀ x, Raises P (mathAbs x) := by
    intro x
    unfold mathAbs
    split
    · exact raises_ok _
    · exact raises_error.mpr hoverflow
  unfold sumCommitments
  refine (raises_forM fun o _ => hproof o).bind fun _ => hoverage.bind fun overage => ?_
  split
  · exact hsum _ _
  · refine (habs _).bind fun _ => (hvalue _).bind fun _ => ?_
    split
    · exact hsum _ _
    · exact hsum _ _

theorem raises_verifySig (hP : ∀ message, P (.exception message)) (hoverflow : P .overflow)
    (tx : Transaction) : Raises P (tx.verifySig N secp) := by
  have hmsg : ∀ data, Raises P (Message.fromSlice data) := by
    intro data
    unfold Message.fromSlice
    split
    · exact raises_ok _
    · exact raises_error.mpr (hP _)
  have hsig : ∀ data, Raises P (Signiture.fromDer N data) := by
    intro data
    unfold Signiture.fromDer
    split
    · exact raises_ok _
    · exact raises_error.mpr (hP _)
  have hoverage : Raises P (ICommitted.overage tx) := raises_ok _
  unfold Transaction.verifySig
  refine (raises_sumCommitments hP hoverflow hoverage).bind fun rsum => ?_
  refine (hmsg _).bind fun msg => (hsig _).bind fun sig => ?_
  exact (raises_verifyFromCommit hP).bind fun _ => raises_pure _

end Raises

/-! ## One block -/

namespace BlockHeader

/-- What the difficulty of the header's proof divides by. -/
def divisor (env : Env) (self : BlockHeader) : ℕ :=
  match self.pow.clone >>= Proof.write with
  | .error _ => 0
  | .ok bytes => Difficulty.leading (hashOf env bytes)

/-- The difficulty of a clone of the header's proof, the target as declared. -/
def powDifficulty (env : Env) (self : BlockHeader) : Except Exn Difficulty := do
  let pow ← self.pow.clone
  (pow.toDifficulty env Difficulty.maxTarget).1

end BlockHeader

/-- What `Block.with_reward` takes besides the previous header. -/
structure Mining where
  now : Int64
  txs : List Transaction
  rewardOut : Output
  rewardKern : TxKernel
deriving DecidableEq

namespace Mining

/-- `Block.with_reward` on a header, the target as declared. -/
def run (env : Env) (self : Mining) (prev : BlockHeader) : Except Exn Block :=
  (Block.withReward env self.now prev self.txs self.rewardOut self.rewardKern
    Difficulty.maxTarget).1

/-- A block of some reward and nothing else. -/
def rewardOnly : Mining :=
  ⟨0, [], ⟨0, ⟨zeros 33⟩, ⟨[]⟩, ⟨[], 0⟩⟩, ⟨0, 0, 0, ⟨zeros 33⟩, []⟩⟩

theorem rewardOnly_verifies (env : Env) : rewardOnly.txs.mapM
    (Transaction.verifySig env.secp (Secp256K1.withCaps .commit)) = .ok [] := rfl

end Mining

/-- One more header of a chain. -/
def Extends (env : Env) (prev : BlockHeader) (mining : Mining) (next : BlockHeader) : Prop :=
  ∃ b, mining.run env prev = .ok b ∧ b.header = next

/-- On a header, no block divides by zero, and every one adds up exactly. -/
structure Accumulates (env : Env) (prev : BlockHeader) : Prop where
  divides : ∀ mining : Mining, mining.run env prev ≠ .error .divideByZero
  adds : ∀ (mining : Mining) b, mining.run env prev = .ok b → ∃ difficulty,
    prev.powDifficulty env = .ok difficulty ∧
      b.header.totalDifficulty.num.toNat = prev.totalDifficulty.num.toNat + difficulty.num.toNat
  grows : ∀ (mining : Mining) b, mining.run env prev = .ok b →
    prev.totalDifficulty.num ≤ b.header.totalDifficulty.num

section Header

variable {prev : BlockHeader} (hnonces : prev.pow.nonces ≠ none)

include hnonces

/-- The proof of a header with nonces can be cloned and hashed. -/
theorem exists_pow (env : Env) : ∃ pow bytes, prev.pow.clone = .ok pow ∧ pow.write = .ok bytes ∧
    prev.divisor env = Difficulty.leading (hashOf env bytes) := by
  obtain ⟨pow, hclone⟩ := Proof.exists_clone_iff.mpr hnonces
  obtain ⟨bytes, hwrite⟩ := Proof.write_clone hclone
  refine ⟨pow, bytes, hclone, hwrite, ?_⟩
  simp only [BlockHeader.divisor, hclone, ok_bind, hwrite]

/-- With a divisor of zero, a block of a reward alone raises. -/
theorem run_of_zero (h : prev.divisor env = 0) :
    Mining.rewardOnly.run env prev = .error .divideByZero := by
  obtain ⟨pow, bytes, hclone, hwrite, hdivisor⟩ := exists_pow hnonces env
  have hdiff : (pow.toDifficulty env Difficulty.maxTarget).1 = .error .divideByZero := by
    rw [Proof.toDifficulty_of_write hwrite, Difficulty.fromHash_of_zero (hdivisor ▸ h)]
  have hrun := Block.withReward_of_error 0 Mining.rewardOnly.rewardOut
    Mining.rewardOnly.rewardKern (Mining.rewardOnly_verifies env) hclone (Prod.ext hdiff rfl)
  exact congrArg Prod.fst hrun

/-- The difficulty of the proof. -/
theorem powDifficulty_of_ne (h : prev.divisor env ≠ 0) : prev.powDifficulty env =
    .ok ⟨UInt64.ofNat (Difficulty.maxTargetNum / prev.divisor env)⟩ := by
  obtain ⟨pow, bytes, hclone, hwrite, hdivisor⟩ := exists_pow hnonces env
  rw [hdivisor] at h ⊢
  simp only [BlockHeader.powDifficulty, hclone, ok_bind]
  rw [Proof.toDifficulty_of_write hwrite, Difficulty.fromHash_of_ne h, Difficulty.asNat_maxTarget]

/-- With another divisor, a block whose transactions verify adds the quotient to the total. -/
theorem run_of_ne (h : prev.divisor env ≠ 0) (mining : Mining) {kernels : List TxKernel}
    (hkernels : mining.txs.mapM (Transaction.verifySig env.secp (Secp256K1.withCaps .commit)) =
      .ok kernels) :
    ∃ b, mining.run env prev = .ok b ∧
      b.header.pow = Proof.zero automatedTestingProofSize ∧
      b.header.totalDifficulty.num =
        UInt64.ofNat (Difficulty.maxTargetNum / prev.divisor env) + prev.totalDifficulty.num := by
  obtain ⟨pow, bytes, hclone, hwrite, hdivisor⟩ := exists_pow hnonces env
  rw [hdivisor] at h ⊢
  have hdiff : (pow.toDifficulty env Difficulty.maxTarget).1 =
      .ok ⟨UInt64.ofNat (Difficulty.maxTargetNum / Difficulty.leading (hashOf env bytes))⟩ := by
    rw [Proof.toDifficulty_of_write hwrite, Difficulty.fromHash_of_ne h,
      Difficulty.asNat_maxTarget]
  obtain ⟨b, hb, hpow, htotal⟩ := Block.withReward_of_ok mining.now mining.rewardOut
    mining.rewardKern hkernels hclone (Prod.ext hdiff rfl)
  exact ⟨b, congrArg Prod.fst hb, hpow, htotal⟩

end Header

theorem toNat_difficulty (divisor : ℕ) :
    (UInt64.ofNat (Difficulty.maxTargetNum / divisor)).toNat = Difficulty.maxTargetNum / divisor :=
  UInt64.toNat_ofNat_of_lt' (lt_of_le_of_lt (Nat.div_le_self _ _) (by decide))

/-- A block whose transactions do not verify does not get to the division. -/
theorem run_of_verifySig_error (prev : BlockHeader) {mining : Mining} {e : Exn}
    (h : mining.txs.mapM (Transaction.verifySig env.secp (Secp256K1.withCaps .commit)) =
      .error e) : mining.run env prev = .error e ∧ e ≠ .divideByZero := by
  refine ⟨?_, ?_⟩
  · simp only [Mining.run, Block.withReward, h]
  · have hraises : Raises (· ≠ Exn.divideByZero)
        (mining.txs.mapM (Transaction.verifySig env.secp (Secp256K1.withCaps .commit))) :=
      raises_mapM fun tx _ => raises_verifySig (by simp) (by simp) tx
    exact hraises e h

/-- A header accumulates when its divisor is not zero and the sum fits into a word. -/
theorem accumulates_iff_header {prev : BlockHeader} (hnonces : prev.pow.nonces ≠ none) :
    Accumulates env prev ↔ prev.divisor env ≠ 0 ∧
      prev.totalDifficulty.num.toNat + Difficulty.maxTargetNum / prev.divisor env < 2 ^ 64 := by
  constructor
  · intro h
    have hne : prev.divisor env ≠ 0 := fun hz => h.divides _ (run_of_zero hnonces hz)
    obtain ⟨b, hb, -, -⟩ := run_of_ne hnonces hne .rewardOnly (Mining.rewardOnly_verifies env)
    obtain ⟨difficulty, hdiff, hadds⟩ := h.adds _ b hb
    rw [powDifficulty_of_ne hnonces hne] at hdiff
    cases hdiff
    rw [toNat_difficulty] at hadds
    exact ⟨hne, hadds ▸ b.header.totalDifficulty.num.toNat_lt⟩
  · rintro ⟨hne, hlt⟩
    have hadds : ∀ (mining : Mining) b, mining.run env prev = .ok b →
        b.header.totalDifficulty.num.toNat =
          prev.totalDifficulty.num.toNat + Difficulty.maxTargetNum / prev.divisor env := by
      intro mining b hb
      cases hkernels : mining.txs.mapM
          (Transaction.verifySig env.secp (Secp256K1.withCaps .commit)) with
      | error e => exact nomatch (run_of_verifySig_error _ hkernels).1.symm.trans hb
      | ok kernels =>
        obtain ⟨b', hb', -, htotal⟩ := run_of_ne hnonces hne mining hkernels
        obtain rfl : b' = b := Except.ok.inj (hb'.symm.trans hb)
        rw [htotal, UInt64.toNat_add, toNat_difficulty, Nat.add_comm, Nat.mod_eq_of_lt hlt]
    refine ⟨fun mining herror => ?_, fun mining b hb => ?_, fun mining b hb => ?_⟩
    · cases hkernels : mining.txs.mapM
          (Transaction.verifySig env.secp (Secp256K1.withCaps .commit)) with
      | error e =>
        obtain ⟨hrun, hdiv⟩ := run_of_verifySig_error prev hkernels
        exact hdiv (Except.error.inj (hrun.symm.trans herror))
      | ok kernels =>
        obtain ⟨b, hb, -⟩ := run_of_ne hnonces hne mining hkernels
        exact nomatch hb.symm.trans herror
    · refine ⟨_, powDifficulty_of_ne hnonces hne, ?_⟩
      rw [hadds mining b hb, toNat_difficulty]
    · rw [UInt64.le_iff_toNat_le, hadds mining b hb]
      exact Nat.le_add_right _ _

/-! ## Chains -/

/-- The first blocks of every chain, up to a number, are on headers that accumulate. -/
def AccumulatesFor (env : Env) (start : BlockHeader) (n : ℕ) : Prop :=
  ∀ history last, Run (Extends env) start history last → history.length < n →
    Accumulates env last

/-- The divisor of every header `with_reward` builds. -/
def zeroDivisor (env : Env) : ℕ := (BlockHeader.default 0).divisor env

theorem divisor_of_zero_pow {header : BlockHeader}
    (h : header.pow = Proof.zero automatedTestingProofSize) :
    header.divisor env = zeroDivisor env := by
  unfold zeroDivisor BlockHeader.divisor
  rw [h]
  rfl

/-- The next header, when one accumulates. -/
theorem Accumulates.next {prev next : BlockHeader} {mining : Mining}
    (hnonces : prev.pow.nonces ≠ none) (h : Accumulates env prev)
    (hnext : Extends env prev mining next) :
    next.pow = Proof.zero automatedTestingProofSize ∧
      next.totalDifficulty.num.toNat =
        prev.totalDifficulty.num.toNat + Difficulty.maxTargetNum / prev.divisor env := by
  obtain ⟨hne, -⟩ := (accumulates_iff_header hnonces).mp h
  obtain ⟨b, hb, rfl⟩ := hnext
  obtain ⟨difficulty, hdiff, hadds⟩ := h.adds mining b hb
  rw [powDifficulty_of_ne hnonces hne] at hdiff
  cases hdiff
  rw [toNat_difficulty] at hadds
  refine ⟨?_, hadds⟩
  cases hkernels : mining.txs.mapM
      (Transaction.verifySig env.secp (Secp256K1.withCaps .commit)) with
  | error e => exact nomatch (run_of_verifySig_error _ hkernels).1.symm.trans hb
  | ok kernels =>
    obtain ⟨b', hb', hpow, -⟩ := run_of_ne hnonces hne mining hkernels
    obtain rfl : b' = b := Except.ok.inj (hb'.symm.trans hb)
    exact hpow

/-- A chain is a first block and a chain on it. -/
theorem accumulatesFor_succ {start : BlockHeader} {n : ℕ} :
    AccumulatesFor env start (n + 1) ↔ Accumulates env start ∧
      ∀ mining next, Extends env start mining next → AccumulatesFor env next n := by
  constructor
  · intro h
    refine ⟨h [] start (.nil start) (Nat.succ_pos n), fun mining next hnext history last hrun hlt => ?_⟩
    exact h (mining :: history) last ((Run.single hnext).trans hrun) (Nat.succ_lt_succ hlt)
  · rintro ⟨hstart, hnext⟩ history last hrun hlt
    cases history with
    | nil => exact hrun.eq_of_nil ▸ hstart
    | cons mining later =>
      have hsplit : Run (Extends env) start ([] ++ mining :: later) last := hrun
      obtain ⟨first, next, hnil, hstep, hlater⟩ := hsplit.exists_step
      rw [← hnil.eq_of_nil] at hstep
      exact hnext mining next hstep later last hlater (Nat.lt_of_succ_lt_succ hlt)

/-- With nonces to start from, the first `n` blocks of every chain divide and add up exactly when the
divisors are not zero and the word has room for the first difficulty and `n - 1` later ones. -/
theorem accumulates_iff {start : BlockHeader} (hnonces : start.pow.nonces ≠ none) (n : ℕ) :
    AccumulatesFor env start n ↔ n = 0 ∨ (start.divisor env ≠ 0 ∧ (2 ≤ n → zeroDivisor env ≠ 0) ∧
      start.totalDifficulty.num.toNat + Difficulty.maxTargetNum / start.divisor env +
        (n - 1) * (Difficulty.maxTargetNum / zeroDivisor env) < 2 ^ 64) := by
  induction n generalizing start with
  | zero => simp [AccumulatesFor]
  | succ n ih =>
    -- induction on the length: the first block is mined on `start`, the others on what it becomes
    rw [accumulatesFor_succ, accumulates_iff_header hnonces]
    -- the chains on the next header, whose proof is all zeroes and whose total is the exact sum
    have hlater : ∀ mining next, Extends env start mining next → Accumulates env start →
        (AccumulatesFor env next n ↔ n = 0 ∨ (zeroDivisor env ≠ 0 ∧
          start.totalDifficulty.num.toNat + Difficulty.maxTargetNum / start.divisor env +
            n * (Difficulty.maxTargetNum / zeroDivisor env) < 2 ^ 64)) := by
      intro mining next hnext hstart
      obtain ⟨hpow, htotal⟩ := hstart.next hnonces hnext
      rw [@ih next (by rw [hpow]; simp [Proof.zero]), divisor_of_zero_pow hpow, htotal]
      cases n with
      | zero => simp
      | succ m =>
        have hsum : Difficulty.maxTargetNum / zeroDivisor env +
            m * (Difficulty.maxTargetNum / zeroDivisor env) =
            (m + 1) * (Difficulty.maxTargetNum / zeroDivisor env) := by rw [Nat.succ_mul, Nat.add_comm]
        rw [Nat.add_sub_cancel, Nat.add_assoc _ (Difficulty.maxTargetNum / zeroDivisor env), hsum]
        simp only [Nat.add_one_ne_zero, false_or]
        constructor
        · rintro ⟨hne, -, hlt⟩
          exact ⟨hne, hlt⟩
        · rintro ⟨hne, hlt⟩
          exact ⟨hne, fun _ => hne, hlt⟩
    simp only [Nat.add_one_ne_zero, false_or, Nat.add_sub_cancel]
    constructor
    · rintro ⟨⟨hne, hlt⟩, hnext⟩
      have hstart := (accumulates_iff_header hnonces).mpr ⟨hne, hlt⟩
      -- a block without transactions is always there to extend the chain with
      obtain ⟨b, hb, -, -⟩ := run_of_ne hnonces hne .rewardOnly (Mining.rewardOnly_verifies env)
      have hextends : Extends env start .rewardOnly b.header := ⟨b, hb, rfl⟩
      rcases (hlater _ _ hextends hstart).mp (hnext _ _ hextends) with rfl | ⟨hzero, hsum⟩
      · exact ⟨hne, fun h => absurd h (by decide), by simpa using hlt⟩
      · exact ⟨hne, fun _ => hzero, hsum⟩
    · rintro ⟨hne, hzero, hsum⟩
      have hlt := lt_of_le_of_lt (Nat.le_add_right _ _) hsum
      have hstart := (accumulates_iff_header hnonces).mpr ⟨hne, hlt⟩
      refine ⟨⟨hne, hlt⟩, fun mining next hnext => (hlater mining next hnext hstart).mpr ?_⟩
      cases n with
      | zero => exact Or.inl rfl
      | succ m => exact Or.inr ⟨hzero (Nat.le_add_left 2 m), hsum⟩

/-- A header over pairs whose total is a number and whose proof is not all zeroes. -/
def pairHeaderOf (total : UInt64) : BlockHeader :=
  { BlockHeader.default 0 with pow := ⟨some (List.replicate 8 1), 8⟩, totalDifficulty := ⟨total⟩ }

theorem accumulates_iff_pairs :
    AccumulatesFor Pairs.env (pairHeaderOf 5) 1 ∧ ¬ AccumulatesFor Pairs.env (pairHeaderOf 5) 2 ∧
      ¬ AccumulatesFor Pairs.env (pairHeaderOf 0xffffffffffffffff) 1 := by
  have hnonces : ∀ total, (pairHeaderOf total).pow.nonces ≠ none := fun _ => by simp [pairHeaderOf]
  refine ⟨(accumulates_iff (hnonces 5) 1).mpr (by decide +kernel), fun h => ?_, fun h => ?_⟩
  · exact absurd ((accumulates_iff (hnonces 5) 2).mp h) (by decide +kernel)
  · exact absurd ((accumulates_iff (hnonces _) 1).mp h) (by decide +kernel)

/-- A total at the end of the word starts again, and the second block on any header divides by zero
where the hash of the zero proof begins with zeroes. -/
theorem total_falls_and_division_by_zero :
    (∃ b, Mining.rewardOnly.run Pairs.env (pairHeaderOf 0xffffffffffffffff) = .ok b ∧
      b.header.totalDifficulty.num < (pairHeaderOf 0xffffffffffffffff).totalDifficulty.num) ∧
    (∃ b, Mining.rewardOnly.run Pairs.env (pairHeaderOf 5) = .ok b ∧
      Mining.rewardOnly.run Pairs.env b.header = .error .divideByZero) ∧
    ¬ ∀ (start : BlockHeader) (n : ℕ), start.pow.nonces ≠ none →
      AccumulatesFor Pairs.env start n := by
  have hfall : ∃ b, Mining.rewardOnly.run Pairs.env (pairHeaderOf 0xffffffffffffffff) = .ok b ∧
      b.header.totalDifficulty.num < (pairHeaderOf 0xffffffffffffffff).totalDifficulty.num := by
    refine ⟨_, rfl, ?_⟩
    decide +kernel
  refine ⟨hfall, ⟨_, rfl, by decide +kernel⟩, fun h => ?_⟩
  obtain ⟨b, hb, hlt⟩ := hfall
  have hacc := h (pairHeaderOf 0xffffffffffffffff) 1 (by simp [pairHeaderOf]) [] _ (.nil _)
    Nat.one_pos
  exact absurd hlt (UInt64.not_lt.mpr (hacc.grows _ b hb))

end GrinDotnet
