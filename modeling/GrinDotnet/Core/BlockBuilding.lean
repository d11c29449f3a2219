import GrinDotnet.Core.BlockSupply
import GrinDotnet.Core.CutThrough
import GrinDotnet.Core.Difficulty
import GrinDotnet.Keychain.PairKeychain

/-!
# Building blocks

`Block.New` on transactions that pass `Transaction.Validate`: the reward, the half of the fees that
is not paid out, the overage and the cut-through balance for every list of transactions.

Results:
1. `rewardOutput_eq`: the reward's output and kernel, which verify and match each other.
2. `validate_new`: `Block.Validate` accepts what `Block.New` builds.
-/

namespace GrinDotnet

open BigEndian Outcome

variable {N : Native} {E : Type*} [AddCommGroup E]

namespace Block

/-! ## The reward -/

variable {env : Env}

/-- The reward's output commits to the reward, its kernel's excess is the key alone, and both
verify. -/
theorem rewardOutput_eq (P : Honest env.secp E) {keychain : Keychain env} {keyId : Identifier}
    {key : SecretKey env.secp} (hkey : keychain.derivedKey keyId = .ok key) (fees : UInt64)
    {secp : Secp256K1} (hcaps : secp.caps = .commit) :
    ∃ out kern, rewardOutput keychain keyId fees = .ok (out, kern) ∧
      out.features = OutputFeatures.coinbaseOutput ∧
      out.commit = ⟨P.save ((Consensus.reward fees).toNat • P.H + key.scalar • P.G)⟩ ∧
      out.verifyProof env.secp = .ok () ∧
      kern.features = KernelFeatures.coinbaseKernel ∧ kern.fee = 0 ∧ kern.lockHeight = 0 ∧
      kern.excess = ⟨P.save (key.scalar • P.G)⟩ ∧
      KernelSigned env.secp secp 0 0 kern.excessSig kern.excess := by
  have hkc := keychain.caps_commit
  obtain ⟨minted, hminted, hmintedPoint⟩ := P.commitValue_eq hkc (Consensus.reward_ne_zero fees)
  obtain ⟨⟨range, hrange⟩, -, -⟩ := P.verifyRangeProof_rangeProof (Consensus.reward fees) key
    ProofMessage.empty
  obtain ⟨sig, der, hsig, hder, -, hparse, hverify⟩ := P.verifyFromCommit_sign hcaps
    ⟨⟨kernelSigMsg 0 0, length_kernelSigMsg 0 0⟩⟩ key
  have hmsg : Message.fromSlice (List.replicate 32 0)
      = .ok ⟨⟨kernelSigMsg 0 0, length_kernelSigMsg 0 0⟩⟩ := fromSlice_kernelSigMsg 0 0
  have hsign : keychain.secp.sign ⟨⟨kernelSigMsg 0 0, length_kernelSigMsg 0 0⟩⟩ key = .ok sig := by
    rw [← hsig]
    simp only [Secp256K1.sign, Secp256K1.canSign, hkc, hcaps]
  have hexcess : Secp256K1.commitSum env.secp
      [⟨P.save ((Consensus.reward fees).toNat • P.H + key.scalar • P.G)⟩] [minted]
      = .ok ⟨P.save (key.scalar • P.G)⟩ := by
    have hsub : P.pointSum [⟨P.save ((Consensus.reward fees).toNat • P.H + key.scalar • P.G)⟩]
        - P.pointSum [minted] = key.scalar • P.G := by
      rw [P.pointSum_cons, P.pointSum_cons, P.pointSum_nil, hmintedPoint,
        P.point_save (P.key_ne_zero key _)]
      abel
    have hne : key.scalar • P.G ≠ 0 := by
      simpa using P.commit_ne_zero 0 _ key.scalar_lt (.inr key.scalar_ne_zero)
    rw [P.commitSum_of_ne (by rw [hsub]; exact hne), hsub]
  have hswitch : ∃ c, keychain.secp.switchCommit key = .ok c := by
    simp [Secp256K1.switchCommit, hkc]
  obtain ⟨switch, hswitch⟩ := hswitch
  refine ⟨⟨OutputFeatures.coinbaseOutput,
      ⟨P.save ((Consensus.reward fees).toNat • P.H + key.scalar • P.G)⟩,
      SwitchCommitHash.fromSwitchCommit env switch,
      Secp256K1.rangeProof 0 (Consensus.reward fees) key
        ⟨P.save ((Consensus.reward fees).toNat • P.H + key.scalar • P.G)⟩ ProofMessage.empty⟩,
    ⟨KernelFeatures.coinbaseKernel, 0, 0, ⟨P.save (key.scalar • P.G)⟩, der⟩, ?_, rfl, rfl,
    verifyProof_eq_ok_iff.mpr ⟨range, hrange⟩, rfl, rfl, rfl, rfl, ⟨sig, hparse, hverify⟩⟩
  simp only [rewardOutput, Keychain.commit, Keychain.switchCommit, Keychain.rangeProof,
    Keychain.sign, hkey, ok_bind, P.commit_eq hkc, hswitch, hminted, hexcess, hmsg, hsign, hder,
    pure_eq_ok]

/-! ## The sums -/

/-- A list of transactions that pass validation, with fees a block can carry. -/
structure Valid (N : Native) (secp : Secp256K1) (txs : List Transaction) : Prop where
  validate : ∀ tx ∈ txs, tx.validate N secp = .ok ()
  fees_lt : exactSum (txs.map (·.fee)) < 2 ^ 63

theorem fee_le_exactSum {txs : List Transaction} {tx : Transaction} (h : tx ∈ txs) :
    tx.fee.toNat ≤ exactSum (txs.map (·.fee)) := by
  rw [exactSum, List.map_map]
  exact List.single_le_sum (by simp) _ (List.mem_map_of_mem h)

/-- The excess of a transaction, its fee an exact number. -/
def txExcess (P : Pedersen N E) (tx : Transaction) : E := P.excess tx tx.fee.toNat

/-- The kernel of a valid transaction. -/
theorem Valid.verifySig (P : Pedersen N E) {secp : Secp256K1} (hcaps : secp.caps = .commit)
    {txs : List Transaction} (hv : Valid N secp txs) {tx : Transaction} (h : tx ∈ txs) :
    txExcess P tx ≠ 0 ∧
    KernelSigned N secp tx.fee tx.lockHeight tx.excessSig ⟨P.save (txExcess P tx)⟩ ∧
    tx.verifySig N secp = .ok (tx.kernel ⟨P.save (txExcess P tx)⟩) := by
  obtain ⟨-, -, -, k, hk⟩ := Transaction.validate_eq_ok_iff.mp (hv.validate tx h)
  obtain ⟨rsum, hsum, hsigned, rfl⟩ := Transaction.verifySig_eq_ok_iff.mp hk
  obtain ⟨-, overage, hoverage, -, hne, rfl⟩ := (sumCommitments_eq_ok_iff P hcaps).mp hsum
  obtain rfl := Except.ok.inj hoverage
  have hlt : tx.fee.toNat < 2 ^ 63 := lt_of_le_of_lt (fee_le_exactSum h) hv.fees_lt
  rw [Word64.toInt_toInt64, if_pos hlt] at hne hsigned hk
  exact ⟨hne, hsigned, hk⟩

/-- The kernels of valid transactions, in order. -/
theorem Valid.mapM_verifySig (P : Pedersen N E) {secp : Secp256K1} (hcaps : secp.caps = .commit)
    {txs : List Transaction} (hv : Valid N secp txs) :
    txs.mapM (Transaction.verifySig N secp)
      = .ok (txs.map fun tx => tx.kernel ⟨P.save (txExcess P tx)⟩) := by
  rw [mapM_eq_ok, List.forall₂_map_right_iff, List.forall₂_same]
  exact fun tx htx => (hv.verifySig P hcaps htx).2.2

/-- The excesses of the kernels sum to the excesses of the transactions. -/
theorem pointSum_kernels (P : Pedersen N E) {txs : List Transaction}
    (hne : ∀ tx ∈ txs, txExcess P tx ≠ 0) :
    P.pointSum ((txs.map fun tx => tx.kernel ⟨P.save (txExcess P tx)⟩).map (·.excess))
      = (txs.map (txExcess P)).sum := by
  induction txs with
  | nil => simp
  | cons tx txs ih =>
    have hpoint : P.point ⟨P.save (txExcess P tx)⟩ = txExcess P tx := P.point_save (hne tx (by simp))
    simp only [List.map_cons, P.pointSum_cons, List.sum_cons]
    rw [ih fun tx' h => hne tx' (by simp [h])]
    simp only [Transaction.kernel, hpoint]

/-- All inputs, outputs and fees together make up the excesses of the transactions. -/
theorem sum_txExcess (P : Pedersen N E) (txs : List Transaction) :
    (txs.map (txExcess P)).sum
      = P.pointSum ((txs.flatMap (·.outputs)).map (·.commit))
        + (exactSum (txs.map (·.fee)) : ℤ) • P.H
        - P.pointSum ((txs.flatMap (·.inputs)).map (·.commitment)) := by
  induction txs with
  | nil => simp
  | cons tx txs ih =>
    have hcons : txExcess P tx = P.pointSum (tx.outputs.map (·.commit)) + (tx.fee.toNat : ℤ) • P.H
        - P.pointSum (tx.inputs.map (·.commitment)) := rfl
    simp only [List.map_cons, List.sum_cons, List.flatMap_cons, List.map_append,
      P.pointSum_append, exactSum_cons]
    rw [ih, hcons, Nat.cast_add, add_zsmul]
    abel

/-- Valid fees sum to an even number. -/
theorem Valid.even {secp : Secp256K1} {txs : List Transaction} (hv : Valid N secp txs) :
    exactSum (txs.map (·.fee)) % 2 = 0 := by
  have hall : ∀ tx ∈ txs, tx.fee.toNat % 2 = 0 := by
    intro tx htx
    have hand := (Transaction.validate_eq_ok_iff.mp (hv.validate tx htx)).1
    have hnat := congrArg UInt64.toNat hand
    rw [UInt64.toNat_and] at hnat
    have hone : (1 : UInt64).toNat = 1 := rfl
    rw [hone, Nat.and_one_is_mod] at hnat
    exact hnat
  have hsum : ∀ l : List Transaction, (∀ tx ∈ l, tx.fee.toNat % 2 = 0) →
      exactSum (l.map (·.fee)) % 2 = 0 := by
    intro l
    induction l with
    | nil => intro _; rfl
    | cons tx l ih =>
      intro h
      have htx := h tx (by simp)
      have hl := ih fun tx' h' => h tx' (by simp [h'])
      rw [List.map_cons, exactSum_cons]
      omega
  exact hsum txs hall

theorem toNat_newFees {txs : List Transaction} (h : exactSum (txs.map (·.fee)) < 2 ^ 63) :
    (newFees txs).toNat = exactSum (txs.map (·.fee)) := by
  unfold newFees
  cases hfees : txs.map (·.fee) with
  | nil => rfl
  | cons fee fees =>
    rw [hfees, exactSum_cons] at h
    rw [toNat_foldl_add, exactSum_cons, Nat.mod_eq_of_lt (by omega)]

/-! ## The block -/

/-- A block of valid transactions and a reward, before cut-through. -/
structure Assembled (P : Honest N E) (secp : Secp256K1) (txs : List Transaction)
    (key : SecretKey N) (b : Block) (out : Output) (kern : TxKernel) : Prop where
  caps : secp.caps = .commit
  valid : Valid N secp txs
  inputs_eq : b.inputs = txs.flatMap (·.inputs)
  outputs_eq : b.outputs = txs.flatMap (·.outputs) ++ [out]
  kernels_eq : b.kernels
    = (txs.map fun tx => tx.kernel ⟨P.save (txExcess P.toPedersen tx)⟩) ++ [kern]
  default_outputs : ∀ tx ∈ txs, ∀ o ∈ tx.outputs, o.features = OutputFeatures.defaultOutput
  lock_le : ∀ tx ∈ txs, tx.lockHeight ≤ b.header.height
  inputs_nodup : (b.inputs.map (·.commitment)).Nodup
  outputs_nodup : (b.outputs.map (·.commit)).Nodup
  out_features : out.features = OutputFeatures.coinbaseOutput
  out_commit : out.commit
    = ⟨P.save ((Consensus.reward (newFees txs)).toNat • P.H + key.scalar • P.G)⟩
  out_proof : out.verifyProof N = .ok ()
  kern_features : kern.features = KernelFeatures.coinbaseKernel
  kern_fee : kern.fee = 0
  kern_lockHeight : kern.lockHeight = 0
  kern_excess : kern.excess = ⟨P.save (key.scalar • P.G)⟩
  kern_signed : KernelSigned N secp 0 0 kern.excessSig kern.excess
  /-- The blinding factors do not cancel. -/
  sum_ne_zero : (txs.map (txExcess P.toPedersen)).sum + key.scalar • P.G ≠ 0

namespace Assembled

variable {P : Honest N E} {secp : Secp256K1} {txs : List Transaction} {key : SecretKey N}
  {b : Block} {out : Output} {kern : TxKernel}

theorem kernels_ne_nil (h : Assembled P secp txs key b out kern) : b.kernels ≠ [] := by
  rw [h.kernels_eq]
  simp

/-- The reward's kernel has no fee, so a block's fees are those of its transactions. -/
theorem totalFees_eq (h : Assembled P secp txs key b out kern) :
    b.totalFees = .ok (newFees txs) := by
  have hmap : b.kernels.map (·.fee) = txs.map (·.fee) ++ [0] := by
    rw [h.kernels_eq, List.map_append, List.map_map, List.map_singleton, h.kern_fee]
    rfl
  have hzero : (0 : UInt64).toNat = 0 := rfl
  have hlt := h.valid.fees_lt
  obtain ⟨total, htotal, htoNat⟩ := aggregate_add (l := txs.map (·.fee) ++ [0]) (by simp)
  rw [exactSum_append, exactSum_cons, exactSum_nil, hzero, Nat.add_zero,
    Nat.mod_eq_of_lt (by omega), ← toNat_newFees hlt] at htoNat
  rw [totalFees, hmap, htotal, UInt64.toNat_inj.mp htoNat]

/-- The reward survives cut-through and is the only coinbase output. -/
theorem coinbaseOutputs_eq (h : Assembled P secp txs key b out kern) :
    b.cutThrough.coinbaseOutputs = [out] := by
  have hdefault : ∀ o ∈ txs.flatMap (·.outputs),
      hasFlag o.features OutputFeatures.coinbaseOutput = false := by
    intro o ho
    obtain ⟨tx, htx, hotx⟩ := List.mem_flatMap.mp ho
    rw [h.default_outputs tx htx o hotx]
    decide
  have hflag : hasFlag out.features OutputFeatures.coinbaseOutput = true := by
    rw [h.out_features]
    decide
  have hkeep : out.commit.hex ∉ b.commitmentsToCompact := by
    intro hmem
    obtain ⟨-, o, ho, hoflag, hocommit⟩ := mem_commitmentsToCompact.mp hmem
    rw [h.outputs_eq, List.mem_append, List.mem_singleton] at ho
    rcases ho with ho | rfl
    · have hnodup := h.outputs_nodup
      rw [h.outputs_eq, List.map_append, List.map_singleton, List.nodup_append] at hnodup
      exact hnodup.2.2 _ (List.mem_map_of_mem ho) _ (by simp) hocommit
    · rw [hflag] at hoflag
      cases hoflag
  have hnil : (txs.flatMap (·.outputs)).filter (fun o =>
      hasFlag o.features OutputFeatures.coinbaseOutput
        && decide (o.commit.hex ∉ b.commitmentsToCompact)) = [] := by
    refine List.filter_eq_nil_iff.mpr fun o ho => ?_
    simp [hdefault o ho]
  simp only [coinbaseOutputs, cutThrough]
  rw [List.filter_filter, h.outputs_eq, List.filter_append, hnil, List.nil_append]
  simp [hflag, hkeep]

theorem coinbaseKernels_eq (h : Assembled P secp txs key b out kern) :
    b.cutThrough.coinbaseKernels = [kern] := by
  have hflag : hasFlag kern.features KernelFeatures.coinbaseKernel = true := by
    rw [h.kern_features]
    decide
  have hnil : (txs.map fun tx => tx.kernel ⟨P.save (txExcess P.toPedersen tx)⟩).filter
      (fun k => hasFlag k.features KernelFeatures.coinbaseKernel) = [] := by
    refine List.filter_eq_nil_iff.mpr fun k hk => ?_
    obtain ⟨tx, -, rfl⟩ := List.mem_map.mp hk
    show ¬ hasFlag KernelFeatures.defaultKernel KernelFeatures.coinbaseKernel = true
    decide
  rw [coinbaseKernels, cutThrough_kernels, h.kernels_eq, List.filter_append, hnil, List.nil_append]
  simp [hflag]

theorem key_smul_ne_zero (P : Honest N E) (key : SecretKey N) : key.scalar • P.G ≠ 0 := by
  simpa using P.commit_ne_zero 0 _ key.scalar_lt (.inr key.scalar_ne_zero)

theorem verifyCoinbase (h : Assembled P secp txs key b out kern) :
    b.cutThrough.verifyCoinbase N = .ok () := by
  have hcaps : (Secp256K1.withCaps .commit).caps = .commit := rfl
  obtain ⟨minted, hminted, hpoint⟩ := P.commitValue_eq hcaps (Consensus.reward_ne_zero (newFees txs))
  refine verifyCoinbase_eq_ok_iff.mpr ⟨kern.excess, coinbaseSums_eq_ok_iff.mpr
    ⟨newFees txs, minted, h.totalFees_eq, hminted, ?_, ?_⟩⟩
  · have hsub : P.pointSum [out.commit] - P.pointSum [minted] = key.scalar • P.G := by
      rw [P.pointSum_cons, P.pointSum_cons, P.pointSum_nil, hpoint, h.out_commit,
        P.point_save (P.key_ne_zero key _)]
      abel
    rw [h.coinbaseOutputs_eq, List.map_singleton,
      P.commitSum_of_ne (by rw [hsub]; exact key_smul_ne_zero P key), hsub, h.kern_excess]
  · have hsub : P.pointSum [kern.excess] - P.pointSum [] = key.scalar • P.G := by
      rw [P.pointSum_cons, P.pointSum_nil, h.kern_excess, P.point_save (key_smul_ne_zero P key)]
      abel
    rw [h.coinbaseKernels_eq, List.map_singleton,
      P.commitSum_of_ne (by rw [hsub]; exact key_smul_ne_zero P key), hsub, h.kern_excess]

/-- The half of the fees that the reward leaves is what the overage adds. -/
theorem exists_overage (h : Assembled P secp txs key b out kern) :
    ∃ overage, b.cutThrough.overage = .ok overage ∧ overage ≠ Int64.minValue ∧
      P.excess b.cutThrough overage.toInt
        = (txs.map (txExcess P.toPedersen)).sum + key.scalar • P.G := by
  have hlt := h.valid.fees_lt
  have heven := h.valid.even
  have hfees := toNat_newFees hlt
  obtain ⟨overage, hoverage, htoInt⟩ := toInt_overage (b := b.cutThrough) h.totalFees_eq
  rw [Word64.toInt_toInt64, hfees, if_pos hlt, (Word64.tdiv_two _).1 (by omega)] at htoInt
  have hreward : (Consensus.reward (newFees txs)).toNat
      = 50000000000 + exactSum (txs.map (·.fee)) / 2 := by
    rw [Consensus.toNat_reward, hfees]
  have hsplit : ((exactSum (txs.map (·.fee)) : ℕ) : ℤ)
      = (Consensus.reward (newFees txs)).toNat + overage.toInt := by
    rw [hreward, htoInt]
    push_cast
    omega
  refine ⟨overage, hoverage, ?_, ?_⟩
  · rintro rfl
    rw [Int64.toInt_minValue] at htoInt
    omega
  · rw [excess_cutThrough P.toPedersen h.inputs_nodup h.outputs_nodup, sum_txExcess, hsplit, add_zsmul]
    have hexcess : P.excess b overage.toInt = P.pointSum (b.outputs.map (·.commit))
        + overage.toInt • P.H - P.pointSum (b.inputs.map (·.commitment)) := rfl
    rw [hexcess, h.outputs_eq, h.inputs_eq, List.map_append, List.map_singleton,
      P.pointSum_append, P.pointSum_cons, P.pointSum_nil, h.out_commit,
      P.point_save (P.key_ne_zero key _), natCast_zsmul]
    abel

theorem verifyKernels (h : Assembled P secp txs key b out kern) :
    b.cutThrough.verifyKernels N secp false = .ok () := by
  obtain ⟨overage, hoverage, hmin, hexcess⟩ := h.exists_overage
  have hne : ∀ tx ∈ txs, txExcess P.toPedersen tx ≠ 0 := fun tx htx =>
    (h.valid.verifySig P.toPedersen h.caps htx).1
  have hkernels : P.pointSum (b.cutThrough.kernels.map (·.excess)) - P.pointSum []
      = (txs.map (txExcess P.toPedersen)).sum + key.scalar • P.G := by
    rw [cutThrough_kernels, h.kernels_eq, List.map_append, P.pointSum_append,
      pointSum_kernels P.toPedersen hne, List.map_singleton, P.pointSum_cons, P.pointSum_nil,
      h.kern_excess, P.point_save (key_smul_ne_zero P key)]
    abel
  have hcase : ∀ k ∈ b.cutThrough.kernels,
      (∃ tx ∈ txs, tx.kernel ⟨P.save (txExcess P.toPedersen tx)⟩ = k) ∨ k = kern := by
    intro k hk
    rw [cutThrough_kernels, h.kernels_eq, List.mem_append, List.mem_map, List.mem_singleton] at hk
    exact hk
  have hnil : b.cutThrough.kernels ≠ [] := h.kernels_ne_nil
  have hio : sumCommitments N secp b.cutThrough
      = .ok ⟨P.save ((txs.map (txExcess P.toPedersen)).sum + key.scalar • P.G)⟩ := by
    refine (sumCommitments_eq_ok_iff P.toPedersen h.caps).mpr
      ⟨fun o ho => ?_, overage, hoverage, hmin, ?_, by rw [hexcess]⟩
    · have hmem : o ∈ b.outputs := List.mem_of_mem_filter ho
      rw [h.outputs_eq, List.mem_append, List.mem_flatMap, List.mem_singleton] at hmem
      rcases hmem with ⟨tx, htx, hotx⟩ | rfl
      · exact (Transaction.validate_eq_ok_iff.mp (h.valid.validate tx htx)).2.2.1 o hotx
      · exact h.out_proof
    · rw [hexcess]
      exact h.sum_ne_zero
  refine (verifyKernels_eq_ok_iff hnil).mpr
    ⟨?_, verifyProof_of_sumCommitments hio, ⟨_, hio, ?_⟩, fun _ k hk => ?_⟩
  · intro k hk
    rcases hcase k hk with ⟨tx, htx, rfl⟩ | rfl
    · exact h.lock_le tx htx
    · rw [h.kern_lockHeight]
      exact UInt64.le_iff_toNat_le.mpr (Nat.zero_le _)
  · rw [P.commitSum_of_ne (by rw [hkernels]; exact h.sum_ne_zero), hkernels]
  · refine kernelVerify_eq_ok_iff.mpr ?_
    rcases hcase k hk with ⟨tx, htx, rfl⟩ | rfl
    · exact (h.valid.verifySig P.toPedersen h.caps htx).2.1
    · rw [h.kern_fee, h.kern_lockHeight]
      exact h.kern_signed

end Assembled

/-- `Block.Validate` accepts the block `Block.New` builds from valid transactions. -/
theorem validate_new (P : Honest env.secp E) {now : Int64} {prev : BlockHeader}
    {txs : List Transaction} {keychain : Keychain env} (hderivable : keychain.Derivable)
    {derivation : UInt32} (hone : 1 ≤ derivation.toNat) (hmax : derivation.toNat ≤ maxDerivations)
    {keyId : Identifier} (hkeyId : keychain.deriveKeyId derivation = .ok keyId)
    {secp : Secp256K1} (hcaps : secp.caps = .commit) {target : Fixed 8}
    (hnonces : prev.pow.nonces ≠ none)
    (hleading : ∀ pow bytes, prev.pow.clone = .ok pow → pow.write = .ok bytes →
      asNat ((hashOf env bytes).take 8) ≠ 0)
    (hvalid : ∀ tx ∈ txs, tx.validate env.secp secp = .ok ())
    (hdefault : ∀ tx ∈ txs, ∀ o ∈ tx.outputs, o.features = OutputFeatures.defaultOutput)
    (hlock : ∀ tx ∈ txs, tx.lockHeight ≤ prev.height + 1)
    (hfees : exactSum (txs.map (·.fee)) < 2 ^ 63)
    (hinputs : ((txs.flatMap (·.inputs)).map (·.commitment)).Nodup)
    (houtputs : ∀ out kern, rewardOutput keychain keyId (newFees txs) = .ok (out, kern) →
      ((txs.flatMap (·.outputs) ++ [out]).map (·.commit)).Nodup)
    (hsum : ∀ key, keychain.derivedKey keyId = .ok key →
      (txs.map (txExcess P.toPedersen)).sum + key.scalar • P.G ≠ 0)
    (hweight : ∀ b, (new now prev txs keychain keyId target).1 = .ok b →
      b.inputs.length + 10 * b.outputs.length + 2 * b.kernels.length ≤ 80000) :
    ∃ b, (new now prev txs keychain keyId target).1 = .ok b ∧ b.validate env.secp secp = .ok () := by
  obtain ⟨key, hkey⟩ := Keychain.derivedKey_ok hderivable hone hmax hkeyId
  obtain ⟨out, kern, hreward, hof, hoc, hop, hkf, hkfee, hkl, hke, hks⟩ :=
    rewardOutput_eq P hkey (newFees txs) hcaps
  obtain rfl : secp = Secp256K1.withCaps .commit := by
    cases secp
    exact congrArg Secp256K1.mk hcaps
  have hv : Valid env.secp (Secp256K1.withCaps .commit) txs := ⟨hvalid, hfees⟩
  obtain ⟨pow, hclone⟩ := Proof.exists_clone_iff.mpr hnonces
  obtain ⟨bytes, hwrite⟩ := Proof.write_clone hclone
  obtain ⟨difficulty, after, hdiff⟩ :=
    Proof.toDifficulty_eq_ok hwrite (hleading pow bytes hclone hwrite) target
  have hnew : ∃ b, (new now prev txs keychain keyId target).1 = .ok b.cutThrough ∧
      Assembled P (Secp256K1.withCaps .commit) txs key b out kern := by
    simp only [new, hreward, withReward, hv.mapM_verifySig P.toPedersen hcaps, hclone, hdiff]
    exact ⟨_, compact_of_whole (Proof.whole_zero _), {
      caps := hcaps
      valid := hv
      inputs_eq := rfl
      outputs_eq := rfl
      kernels_eq := rfl
      default_outputs := hdefault
      lock_le := hlock
      inputs_nodup := hinputs
      outputs_nodup := houtputs out kern hreward
      out_features := hof
      out_commit := hoc
      out_proof := hop
      kern_features := hkf
      kern_fee := hkfee
      kern_lockHeight := hkl
      kern_excess := hke
      kern_signed := hks
      sum_ne_zero := hsum key hkey }⟩
  obtain ⟨b, hb, hasm⟩ := hnew
  refine ⟨b.cutThrough, hb, validate_eq_ok_iff.mpr ⟨?_, hasm.verifyCoinbase, hasm.verifyKernels⟩⟩
  exact Consensus.exceedsWeight_eq_false (hweight _ hb)

/-- A header with a proof of eight nonces. -/
def pairHeader : BlockHeader :=
  { BlockHeader.default 0 with pow := ⟨some (List.replicate 8 1), 8⟩ }

/-- A keychain over pairs whose first child key is 102. -/
def pairKeychain : Keychain Pairs.env := Pairs.keychain 100 (by decide)

/-- A block of one transaction over pairs, of ten in, eight out and a fee of two. -/
theorem validate_new_pairs :
    ∃ b, (new 0 pairHeader [pairTransaction 10 8 2] pairKeychain ⟨ofNat 10 102⟩
        Difficulty.maxTarget).1 = .ok b ∧
      b.validate Pairs.env.secp (Secp256K1.withCaps .commit) = .ok () := by
  have hreward : (match rewardOutput pairKeychain ⟨ofNat 10 102⟩
      (newFees [pairTransaction 10 8 2]) with
    | .ok (out, _) => decide (([pairTransaction 10 8 2].flatMap (·.outputs) ++ [out]).map
        (·.commit)).Nodup
    | .error _ => true) = true := by decide +kernel
  have hkey : (match pairKeychain.derivedKey ⟨ofNat 10 102⟩ with
    | .ok key => decide (([pairTransaction 10 8 2].map (txExcess Pairs.honest.toPedersen)).sum
        + key.scalar • Pairs.honest.G ≠ 0)
    | .error _ => true) = true := by decide +kernel
  have hlight : (match (new 0 pairHeader [pairTransaction 10 8 2] pairKeychain ⟨ofNat 10 102⟩
      Difficulty.maxTarget).1 with
    | .ok b => decide (b.inputs.length + 10 * b.outputs.length + 2 * b.kernels.length ≤ 80000)
    | .error _ => true) = true := by decide +kernel
  have hkeyId : pairKeychain.deriveKeyId 1 = .ok ⟨ofNat 10 102⟩ := by decide +kernel
  have hcaps : (Secp256K1.withCaps .commit).caps = .commit := rfl
  have hderivable : pairKeychain.Derivable := Pairs.derivable _
  refine validate_new Pairs.honest hderivable (by decide) (by decide) hkeyId hcaps (by decide)
    (fun pow bytes hclone hwrite => ?_) (fun tx htx => ?_) (fun tx htx o ho => ?_)
    (fun tx htx => ?_) (by decide) (by decide +kernel) (fun out kern h => ?_) (fun key h => ?_)
    (fun b h => ?_)
  · cases hclone
    cases hwrite
    decide +kernel
  · obtain rfl := List.mem_singleton.mp htx
    decide +kernel
  · obtain rfl := List.mem_singleton.mp htx
    obtain rfl := List.mem_singleton.mp ho
    rfl
  · obtain rfl := List.mem_singleton.mp htx
    decide
  · rw [h] at hreward
    exact of_decide_eq_true hreward
  · rw [h] at hkey
    exact of_decide_eq_true hkey
  · rw [h] at hlight
    exact of_decide_eq_true hlight

end Block

end GrinDotnet
