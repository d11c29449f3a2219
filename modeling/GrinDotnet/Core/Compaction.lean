import GrinDotnet.Core.BlockWire
import GrinDotnet.Core.CutThrough

/-!
# The copy that cut-through makes

`Compact` answers a new block, whose header is a clone. A proof that was read off the wire has no
nonces and cannot be cloned, so such a block cannot be compacted.

Results:
1. `not_shared_cutThrough`, `cutThrough_cutThrough`: cut-through is complete, and done after one time.
2. `compactsTo_iff`: when a block is compacted as it should be.
3. `compact_of_deserialize`: a block that was read off the wire cannot be compacted.
-/

namespace GrinDotnet

open BigEndian Outcome

namespace Block

instance (b : Block) (c : Commitment) : Decidable (b.Shared c) :=
  inferInstanceAs (Decidable (_ ∧ _))

/-! ## What cut-through leaves -/

theorem inputs_cutThrough (b : Block) :
    b.cutThrough.inputs = b.inputs.filter fun i => !decide (b.Shared i.commitment) := by
  refine List.filter_congr fun i _ => ?_
  simp only [decide_not, mem_commitmentsToCompact]

theorem outputs_cutThrough (b : Block) :
    b.cutThrough.outputs = b.outputs.filter fun o => !decide (b.Shared o.commit) := by
  refine List.filter_congr fun o _ => ?_
  simp only [decide_not, mem_commitmentsToCompact]

/-- After cut-through nothing is shared. -/
theorem not_shared_cutThrough (b : Block) (c : Commitment) : ¬ b.cutThrough.Shared c := by
  rintro ⟨hin, o, ho, hflag, rfl⟩
  obtain ⟨i, hi, hic⟩ := List.mem_map.mp hin
  rw [inputs_cutThrough] at hi
  rw [outputs_cutThrough] at ho
  obtain ⟨hi, hkept⟩ := List.mem_filter.mp hi
  have hshared : b.Shared i.commitment := by
    rw [hic]
    exact ⟨hic ▸ List.mem_map_of_mem hi, o, (List.mem_filter.mp ho).1, hflag, rfl⟩
  simp [hshared] at hkept

/-- Where nothing is shared, nothing is cut through. -/
theorem cutThrough_of_not_shared {b : Block} (h : ∀ c, ¬ b.Shared c) : b.cutThrough = b := by
  have hinputs : b.cutThrough.inputs = b.inputs := by
    rw [inputs_cutThrough]
    exact List.filter_eq_self.mpr fun i _ => by simp [h]
  have houtputs : b.cutThrough.outputs = b.outputs := by
    rw [outputs_cutThrough]
    exact List.filter_eq_self.mpr fun o _ => by simp [h]
  cases b
  exact congrArg₂ (fun inputs outputs => Block.mk _ inputs outputs _) hinputs houtputs

/-- Cut-through is done after one time. -/
@[simp] theorem cutThrough_cutThrough (b : Block) : b.cutThrough.cutThrough = b.cutThrough :=
  cutThrough_of_not_shared (not_shared_cutThrough b)

/-- A block is what cut-through should make of another: of the inputs and outputs those whose
commitments are not shared, in their order, the kernels and the header as they are, nothing shared
any more, and nothing for a second time to do. -/
structure CompactsTo (b b' : Block) : Prop where
  inputs : b'.inputs = b.inputs.filter fun i => !decide (b.Shared i.commitment)
  outputs : b'.outputs = b.outputs.filter fun o => !decide (b.Shared o.commit)
  kernels : b'.kernels = b.kernels
  header : b'.header = b.header
  complete : ∀ c, ¬ b'.Shared c
  idempotent : b'.compact = .ok b'

/-- `Compact` does what it should exactly for the headers whose proof is whole. -/
theorem compactsTo_iff (b : Block) :
    (∃ b', b.compact = .ok b' ∧ CompactsTo b b') ↔ b.header.pow.Whole := by
  constructor
  · rintro ⟨b', hb', hcompacts⟩
    obtain ⟨header, hclone, rfl⟩ := compact_eq_ok_iff.mp hb'
    have hheader : header = b.header := hcompacts.header
    rw [hheader] at hclone
    exact BlockHeader.clone_eq_self_iff.mp hclone
  · intro h
    refine ⟨b.cutThrough, compact_of_whole h, {
      inputs := inputs_cutThrough b
      outputs := outputs_cutThrough b
      kernels := rfl
      header := rfl
      complete := not_shared_cutThrough b
      idempotent := ?_ }⟩
    have hagain : b.cutThrough.compact = .ok b.cutThrough.cutThrough := compact_of_whole h
    rw [hagain, cutThrough_cutThrough]

/-! ## Blocks read off the wire -/

/-- A reader that goes on with another. -/
theorem run_bind_eq_ok {α β : Type} {x : Reader α} {f : α → Reader β} {s : Bytes} {p : β × Bytes} :
    (x >>= f) s = .ok p ↔ ∃ a rest, x s = .ok (a, rest) ∧ f a rest = .ok p := by
  have hbind : (x >>= f) s = (x s >>= fun p => f p.1 p.2) := rfl
  rw [hbind, bind_eq_ok, Prod.exists]

theorem pow_of_read {s rest : Bytes} {header : BlockHeader}
    (h : BlockHeader.read s = .ok (header, rest)) : header.pow = ⟨none, 0⟩ := by
  -- the proof is the last field
  obtain ⟨_, _, -, h⟩ := run_bind_eq_ok.mp h
  obtain ⟨_, _, -, h⟩ := run_bind_eq_ok.mp h
  obtain ⟨_, _, -, h⟩ := run_bind_eq_ok.mp h
  obtain ⟨_, _, -, h⟩ := run_bind_eq_ok.mp h
  obtain ⟨_, _, -, h⟩ := run_bind_eq_ok.mp h
  obtain ⟨_, _, -, h⟩ := run_bind_eq_ok.mp h
  obtain ⟨_, _, -, h⟩ := run_bind_eq_ok.mp h
  obtain ⟨_, _, -, h⟩ := run_bind_eq_ok.mp h
  obtain ⟨_, _, -, h⟩ := run_bind_eq_ok.mp h
  obtain ⟨_, _, -, h⟩ := run_bind_eq_ok.mp h
  obtain ⟨_, _, -, h⟩ := run_bind_eq_ok.mp h
  obtain ⟨pow, _, hpow, h⟩ := run_bind_eq_ok.mp h
  obtain ⟨_, _, -, hpow⟩ := run_bind_eq_ok.mp hpow
  cases hpow
  cases h
  rfl

/-- A block that was read off the wire cannot be compacted. -/
theorem compact_of_deserialize {source : Bytes} {b : Block} (h : deserialize source = .ok b) :
    b.compact = .error .nullReference := by
  obtain ⟨⟨b', rest⟩, hread, hb⟩ := bind_eq_ok.mp h
  cases hb
  obtain ⟨header, _, hheader, hread⟩ := run_bind_eq_ok.mp hread
  obtain ⟨_, _, -, hread⟩ := run_bind_eq_ok.mp hread
  obtain ⟨_, _, -, hread⟩ := run_bind_eq_ok.mp hread
  obtain ⟨_, _, -, hread⟩ := run_bind_eq_ok.mp hread
  obtain ⟨_, _, -, hread⟩ := run_bind_eq_ok.mp hread
  obtain ⟨_, _, -, hread⟩ := run_bind_eq_ok.mp hread
  obtain ⟨_, _, -, hread⟩ := run_bind_eq_ok.mp hread
  cases hread
  simp only [compact, BlockHeader.clone, pow_of_read hheader, Proof.clone, error_bind]

/-- A block whose header was read off the wire, where the nonces are dropped. -/
def wireBlock : Block where
  header := { BlockHeader.default 0 with pow := ⟨none, 0⟩ }
  inputs := []
  outputs := []
  kernels := []

/-- It cannot be compacted. -/
theorem wireBlock_raises : wireBlock.compact = .error .nullReference ∧
    ¬ ∃ b', wireBlock.compact = .ok b' ∧ CompactsTo wireBlock b' := by
  refine ⟨rfl, ?_⟩
  rintro ⟨b', hb', -⟩
  cases hb'

end Block

end GrinDotnet
