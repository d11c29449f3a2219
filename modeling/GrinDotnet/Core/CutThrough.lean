import GrinDotnet.Core.Block
import GrinDotnet.Core.Committed
import GrinDotnet.Lib.Cancellation
import GrinDotnet.Secp.Pairs

/-!
# Cut-through

`Block.Compact` looks for common commitments in sets but removes them from lists: every input and
every output with a common commitment goes, however many there are on either side and whether the
output is a coinbase or not. It also clones the header, which raises when the nonces of the proof are
missing.

Results:
1. `mem_commitmentsToCompact`: which commitments are cut through.
2. `excess_cutThrough`: cut-through leaves the sum of the commitments as it is when no commitment occurs
   twice.
3. `cancelsEvenly_iff`: the blocks that `Compact` leaves in balance and with their coinbase.
-/

namespace GrinDotnet

open BigEndian Outcome

variable {N : Native} {E : Type*} [AddCommGroup E]

namespace Block

/-- The commitments of the inputs. -/
def inputCommits (b : Block) : List Commitment := b.inputs.map (·.commitment)

/-- The commitments of the outputs. -/
def outputCommits (b : Block) : List Commitment := b.outputs.map (·.commit)

/-- A commitment of an input and of an output that is not a coinbase. -/
def Shared (b : Block) (c : Commitment) : Prop :=
  c ∈ b.inputCommits ∧
    ∃ o ∈ b.outputs, hasFlag o.features OutputFeatures.coinbaseOutput = false ∧ o.commit = c

@[simp] theorem cutThrough_header (b : Block) : b.cutThrough.header = b.header := rfl

@[simp] theorem cutThrough_kernels (b : Block) : b.cutThrough.kernels = b.kernels := rfl

/-- The shared commitments are cut through. -/
theorem mem_commitmentsToCompact {b : Block} {c : Commitment} :
    c.hex ∈ b.commitmentsToCompact ↔ b.Shared c := by
  have hhex : ∀ d : Commitment, d.hex = c.hex ↔ d = c := fun d =>
    ⟨Commitment.hex_injective, fun h => h ▸ rfl⟩
  simp only [commitmentsToCompact, Shared, inputCommits, List.mem_filter, List.mem_map,
    decide_eq_true_eq, Bool.not_eq_true', and_assoc, hhex]

/-- Keeping the items whose commitments are not cut through keeps these commitments. -/
theorem map_filter_commit {α : Type} (commit : α → Commitment) (items : List α)
    (hexes : List String) :
    (items.filter fun w => decide ((commit w).hex ∉ hexes)).map commit
      = (items.map commit).filter fun c => !decide (c.hex ∈ hexes) := by
  rw [List.filter_map]
  congr 1
  refine List.filter_congr fun w _ => ?_
  simp

/-- The commitments of the outputs that survive cut-through. -/
theorem outputCommits_cutThrough (b : Block) :
    b.cutThrough.outputCommits
      = b.outputCommits.filter fun c => !decide (c.hex ∈ b.commitmentsToCompact) :=
  map_filter_commit Output.commit b.outputs b.commitmentsToCompact

/-- The commitments of the inputs that survive cut-through. -/
theorem inputCommits_cutThrough (b : Block) :
    b.cutThrough.inputCommits
      = b.inputCommits.filter fun c => !decide (c.hex ∈ b.commitmentsToCompact) :=
  map_filter_commit Input.commitment b.inputs b.commitmentsToCompact

/-- Cut-through leaves the sum of the commitments as it is when it takes as many inputs as outputs of
every commitment. -/
theorem pointSum_cutThrough (P : Pedersen N E) {b : Block}
    (h : ∀ c, b.Shared c → b.outputCommits.count c = b.inputCommits.count c) :
    P.pointSum b.cutThrough.outputCommits - P.pointSum b.cutThrough.inputCommits
      = P.pointSum b.outputCommits - P.pointSum b.inputCommits := by
  rw [outputCommits_cutThrough, inputCommits_cutThrough]
  refine Cancellation.sum_sub_sum_filter_not P.point (Cancellation.filter_perm_iff.mpr fun c hc => ?_)
  exact h c (mem_commitmentsToCompact.mp (of_decide_eq_true hc))

/-- Cut-through leaves the sum of the commitments as it is when no commitment occurs twice. -/
theorem excess_cutThrough (P : Pedersen N E) {b : Block} (hinputs : b.inputCommits.Nodup)
    (houtputs : b.outputCommits.Nodup) (overage : ℤ) :
    P.excess b.cutThrough overage = P.excess b overage := by
  have hsum := pointSum_cutThrough P (b := b) fun c hc => by
    obtain ⟨hin, o, ho, -, rfl⟩ := hc
    rw [List.count_eq_one_of_mem houtputs (List.mem_map_of_mem ho),
      List.count_eq_one_of_mem hinputs hin]
  show P.pointSum b.cutThrough.outputCommits + overage • P.H - P.pointSum b.cutThrough.inputCommits
    = P.pointSum b.outputCommits + overage • P.H - P.pointSum b.inputCommits
  rw [add_sub_right_comm, hsum, add_sub_right_comm]

/-! ## What has to hold of a block -/

/-- From one block to the other as many inputs as outputs of every commitment are gone, the sum of the
commitments is what it was, and the coinbase outputs are still there. -/
structure CancelsEvenly (P : Pedersen N E) (b b' : Block) : Prop where
  pairs : ∀ c, ∃ n, b.inputCommits.count c = b'.inputCommits.count c + n ∧
    b.outputCommits.count c = b'.outputCommits.count c + n
  balance : P.pointSum b'.outputCommits - P.pointSum b'.inputCommits
    = P.pointSum b.outputCommits - P.pointSum b.inputCommits
  coinbase : ∀ o ∈ b.coinbaseOutputs, o ∈ b'.outputs

/-- A shared commitment occurs equally often on both sides, and under no coinbase output. -/
structure Matched (b : Block) : Prop where
  counts : ∀ c, b.Shared c → b.inputCommits.count c = b.outputCommits.count c
  coinbase : ∀ o ∈ b.coinbaseOutputs, ¬ b.Shared o.commit

/-- A shared commitment is gone after cut-through. -/
theorem count_cutThrough_of_shared {b : Block} {c : Commitment} (h : b.Shared c) :
    b.cutThrough.inputCommits.count c = 0 ∧ b.cutThrough.outputCommits.count c = 0 := by
  have hdrop : ∀ l : List Commitment,
      c ∉ l.filter fun d => !decide (d.hex ∈ b.commitmentsToCompact) := by
    intro l hc
    have hkept := (List.mem_filter.mp hc).2
    rw [decide_eq_true (mem_commitmentsToCompact.mpr h)] at hkept
    cases hkept
  rw [inputCommits_cutThrough, outputCommits_cutThrough]
  exact ⟨List.count_eq_zero_of_not_mem (hdrop _), List.count_eq_zero_of_not_mem (hdrop _)⟩

/-- Any other commitment is there as often as before. -/
theorem count_cutThrough_of_not_shared {b : Block} {c : Commitment} (h : ¬ b.Shared c) :
    b.cutThrough.inputCommits.count c = b.inputCommits.count c ∧
      b.cutThrough.outputCommits.count c = b.outputCommits.count c := by
  have hkeep : (!decide (c.hex ∈ b.commitmentsToCompact)) = true := by
    rw [decide_eq_false fun hc => h (mem_commitmentsToCompact.mp hc)]
    rfl
  rw [inputCommits_cutThrough, outputCommits_cutThrough]
  exact ⟨List.count_filter hkeep, List.count_filter hkeep⟩

/-- An output survives cut-through when its commitment is not shared. -/
theorem mem_outputs_cutThrough {b : Block} {o : Output} :
    o ∈ b.cutThrough.outputs ↔ o ∈ b.outputs ∧ ¬ b.Shared o.commit := by
  show o ∈ b.outputs.filter _ ↔ _
  rw [List.mem_filter, decide_eq_true_eq, mem_commitmentsToCompact]

/-- The lists that cut-through keeps cancel evenly exactly on the matched blocks, under any header. -/
theorem cancelsEvenly_cutThrough_iff (P : Pedersen N E) (b : Block) (header : BlockHeader) :
    b.CancelsEvenly P { b.cutThrough with header } ↔ b.Matched := by
  constructor
  · intro h
    refine ⟨fun c hc => ?_, fun o ho hshared => ?_⟩
    · obtain ⟨n, hin, hout⟩ := h.pairs c
      obtain ⟨hin0, hout0⟩ := count_cutThrough_of_shared hc
      exact (hin.trans (congrArg (· + n) hin0)).trans (hout.trans (congrArg (· + n) hout0)).symm
    · exact (mem_outputs_cutThrough.mp (h.coinbase o ho)).2 hshared
  · intro h
    refine ⟨fun c => ?_, pointSum_cutThrough P fun c hc => (h.counts c hc).symm, fun o ho => ?_⟩
    · by_cases hc : b.Shared c
      · obtain ⟨hin0, hout0⟩ := count_cutThrough_of_shared hc
        refine ⟨b.inputCommits.count c, ?_, ?_⟩
        · exact (Nat.zero_add _).symm.trans (congrArg (· + b.inputCommits.count c) hin0.symm)
        · rw [h.counts c hc]
          exact (Nat.zero_add _).symm.trans (congrArg (· + b.outputCommits.count c) hout0.symm)
      · obtain ⟨hin, hout⟩ := count_cutThrough_of_not_shared hc
        exact ⟨0, hin.symm, hout.symm⟩
    · exact mem_outputs_cutThrough.mpr ⟨(List.mem_filter.mp ho).1, h.coinbase o ho⟩

/-- `Compact` answers a block and cancels evenly exactly when the nonces are there and the block is
matched. -/
theorem cancelsEvenly_iff (P : Pedersen N E) (b : Block) :
    (∃ b', b.compact = .ok b' ∧ b.CancelsEvenly P b') ↔
      b.header.pow.nonces ≠ none ∧ b.Matched := by
  rw [← BlockHeader.exists_clone_iff]
  constructor
  · rintro ⟨b', hb', hcancels⟩
    obtain ⟨header, hclone, rfl⟩ := compact_eq_ok_iff.mp hb'
    exact ⟨⟨header, hclone⟩, (cancelsEvenly_cutThrough_iff P b header).mp hcancels⟩
  · rintro ⟨⟨header, hclone⟩, hmatched⟩
    exact ⟨_, compact_eq_ok_iff.mpr ⟨header, hclone, rfl⟩,
      (cancelsEvenly_cutThrough_iff P b header).mpr hmatched⟩

/-- An output over pairs of value 5. -/
def pairCut (features : OutputFeatures) : Output :=
  ⟨features, ⟨Pairs.save 5 1⟩, ⟨List.replicate 20 0⟩, ⟨[1], 1⟩⟩

/-- Two inputs and one output of one commitment. -/
def pairSpentTwice : Block where
  header := BlockHeader.default 0
  inputs := [⟨⟨Pairs.save 5 1⟩⟩, ⟨⟨Pairs.save 5 1⟩⟩]
  outputs := [pairCut OutputFeatures.defaultOutput]
  kernels := []

/-- An input, an output and a coinbase output of one commitment. -/
def pairCoinbaseCut : Block where
  header := BlockHeader.default 0
  inputs := [⟨⟨Pairs.save 5 1⟩⟩]
  outputs := [pairCut OutputFeatures.defaultOutput, pairCut OutputFeatures.coinbaseOutput]
  kernels := []

/-- Of two inputs and one output all three are cut through, and so is a coinbase output. -/
theorem cut_unevenly :
    (∃ b', pairSpentTwice.compact = .ok b' ∧ ¬ pairSpentTwice.CancelsEvenly Pairs.pedersen b') ∧
    ∃ b', pairCoinbaseCut.compact = .ok b' ∧ ¬ pairCoinbaseCut.CancelsEvenly Pairs.pedersen b' := by
  refine ⟨⟨_, compact_of_whole (Proof.whole_zero _), fun h => ?_⟩,
    ⟨_, compact_of_whole (Proof.whole_zero _), fun h => ?_⟩⟩
  · obtain ⟨n, hin, hout⟩ := h.pairs ⟨Pairs.save 5 1⟩
    have hcounts : pairSpentTwice.inputCommits.count ⟨Pairs.save 5 1⟩ = 2 ∧
        pairSpentTwice.cutThrough.inputCommits.count ⟨Pairs.save 5 1⟩ = 0 ∧
        pairSpentTwice.outputCommits.count ⟨Pairs.save 5 1⟩ = 1 ∧
        pairSpentTwice.cutThrough.outputCommits.count ⟨Pairs.save 5 1⟩ = 0 := by decide +kernel
    obtain ⟨h₁, h₂, h₃, h₄⟩ := hcounts
    rw [h₁, h₂] at hin
    rw [h₃, h₄] at hout
    omega
  · have hkept := h.coinbase (pairCut OutputFeatures.coinbaseOutput) (by decide +kernel)
    revert hkept
    decide +kernel

end Block

end GrinDotnet
