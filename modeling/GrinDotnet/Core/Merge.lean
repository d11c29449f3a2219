import GrinDotnet.Core.Compaction

/-!
# Merging blocks

`Merge` appends two blocks and cuts through, so in a merge of more blocks what is cut through early
is gone when the later ones come. Where no commitment occurs twice this does not matter: whatever the
order and the grouping, what is left is what cut-through leaves of all blocks together.

Results:
1. `Reduced.merge`: merging what is left of two blocks, against cutting through both at once.
2. `run_eq_cutThrough`: a whole plan of merges against one cut-through.
3. `mergesAlike_iff`: when every order and grouping of three blocks comes to the same.
-/

namespace GrinDotnet

open BigEndian Outcome

variable {N : Native} {E : Type*} [AddCommGroup E]

namespace Block

/-- The inputs, outputs and kernels of two blocks under the header of the first. -/
def append (self other : Block) : Block :=
  { self with
    inputs := self.inputs ++ other.inputs
    outputs := self.outputs ++ other.outputs
    kernels := self.kernels ++ other.kernels }

/-- `Block.Merge`. -/
def merge (self other : Block) : Except Exn Block := do
  let header ← self.header.clone
  compact { self.append other with header }

/-- Outputs less inputs of a block, as a group element. -/
def balance (P : Pedersen N E) (b : Block) : E :=
  P.pointSum b.outputCommits - P.pointSum b.inputCommits

end Block

/-- Blocks merged two by two. -/
inductive MergePlan
  | block (b : Block)
  | merge (left right : MergePlan)

namespace MergePlan

/-- The blocks of a plan, from the left. -/
def leaves : MergePlan → List Block
  | block b => [b]
  | merge left right => left.leaves ++ right.leaves

/-- What comes of the merges. -/
def run : MergePlan → Except Exn Block
  | block b => .ok b
  | merge left right => do
    let l ← left.run
    let r ← right.run
    l.merge r

/-- All blocks of a plan appended. -/
def whole : MergePlan → Block
  | block b => b
  | merge left right => left.whole.append right.whole

end MergePlan

namespace Block

/-- Some output that is not a coinbase has the commitment. -/
def Pays (b : Block) (c : Commitment) : Prop :=
  ∃ o ∈ b.outputs, hasFlag o.features OutputFeatures.coinbaseOutput = false ∧ o.commit = c

@[simp] theorem inputCommits_append (b b' : Block) :
    (b.append b').inputCommits = b.inputCommits ++ b'.inputCommits := List.map_append

@[simp] theorem outputCommits_append (b b' : Block) :
    (b.append b').outputCommits = b.outputCommits ++ b'.outputCommits := List.map_append

theorem pays_append {b b' : Block} {c : Commitment} :
    (b.append b').Pays c ↔ b.Pays c ∨ b'.Pays c := by
  simp only [Pays, append, List.mem_append, or_and_right, exists_or]

theorem shared_append {b b' : Block} {c : Commitment} : (b.append b').Shared c ↔
    (c ∈ b.inputCommits ∨ c ∈ b'.inputCommits) ∧ (b.Pays c ∨ b'.Pays c) := by
  rw [← List.mem_append, ← inputCommits_append, ← pays_append]
  rfl

theorem mem_outputCommits_of_pays {b : Block} {c : Commitment} (h : b.Pays c) :
    c ∈ b.outputCommits := by
  obtain ⟨o, ho, -, rfl⟩ := h
  exact List.mem_map_of_mem ho

/-- A block is what is left of another under a choice of commitments: only shared ones are gone. -/
structure Reduced (whole b : Block) (kept : Commitment → Bool) : Prop where
  inputs : b.inputs = whole.inputs.filter fun i => kept i.commitment
  outputs : b.outputs = whole.outputs.filter fun o => kept o.commit
  kernels : b.kernels = whole.kernels
  shared : ∀ c, kept c = false → whole.Shared c

namespace Reduced

variable {whole b : Block} {kept : Commitment → Bool}

theorem refl (b : Block) : Reduced b b fun _ => true where
  inputs := (List.filter_eq_self.mpr fun _ _ => rfl).symm
  outputs := (List.filter_eq_self.mpr fun _ _ => rfl).symm
  kernels := rfl
  shared _ h := nomatch h

theorem mem_inputCommits (h : Reduced whole b kept) {c : Commitment} :
    c ∈ b.inputCommits ↔ c ∈ whole.inputCommits ∧ kept c = true := by
  rw [inputCommits, h.inputs, inputCommits]
  constructor
  · intro hc
    obtain ⟨i, hi, rfl⟩ := List.mem_map.mp hc
    obtain ⟨hi, hkept⟩ := List.mem_filter.mp hi
    exact ⟨List.mem_map_of_mem hi, hkept⟩
  · rintro ⟨hc, hkept⟩
    obtain ⟨i, hi, rfl⟩ := List.mem_map.mp hc
    exact List.mem_map_of_mem (List.mem_filter.mpr ⟨hi, hkept⟩)

theorem pays (h : Reduced whole b kept) {c : Commitment} :
    b.Pays c ↔ whole.Pays c ∧ kept c = true := by
  rw [Pays, h.outputs]
  constructor
  · rintro ⟨o, ho, hflag, rfl⟩
    obtain ⟨ho, hkept⟩ := List.mem_filter.mp ho
    exact ⟨⟨o, ho, hflag, rfl⟩, hkept⟩
  · rintro ⟨⟨o, ho, hflag, rfl⟩, hkept⟩
    exact ⟨o, List.mem_filter.mpr ⟨ho, hkept⟩, hflag, rfl⟩

section Merge

variable {wl wr l r : Block} {keptL keptR : Commitment → Bool} (hl : Reduced wl l keptL)
  (hr : Reduced wr r keptR)

include hl hr

/-- A commitment that both sides still have is shared as it was. -/
theorem shared_iff {c : Commitment} (hkeptL : keptL c = true) (hkeptR : keptR c = true) :
    (l.append r).Shared c ↔ (wl.append wr).Shared c := by
  rw [shared_append, shared_append, hl.mem_inputCommits, hr.mem_inputCommits, hl.pays, hr.pays]
  simp only [hkeptL, hkeptR, and_true]

/-- A commitment that a side has lost is shared by both together. -/
theorem shared_of_lost {c : Commitment} (h : keptL c = false ∨ keptR c = false) :
    (wl.append wr).Shared c := by
  rw [shared_append]
  rcases h with h | h
  · obtain ⟨hin, hpays⟩ := hl.shared c h
    exact ⟨.inl hin, .inl hpays⟩
  · obtain ⟨hin, hpays⟩ := hr.shared c h
    exact ⟨.inr hin, .inr hpays⟩

/-- What the two sides have not lost, and the merge does not cut through, was not shared. -/
theorem kept_and_not_shared {c : Commitment} :
    ((keptL c = true ∧ keptR c = true) ∧ ¬ (l.append r).Shared c) ↔ ¬ (wl.append wr).Shared c := by
  constructor
  · rintro ⟨⟨hkeptL, hkeptR⟩, hnot⟩
    rwa [← shared_iff hl hr hkeptL hkeptR]
  · intro hnot
    have hkept : keptL c = true ∧ keptR c = true := by
      refine ⟨?_, ?_⟩
      · exact Bool.not_eq_false _ ▸ fun h => hnot (shared_of_lost hl hr (.inl h))
      · exact Bool.not_eq_false _ ▸ fun h => hnot (shared_of_lost hl hr (.inr h))
    exact ⟨hkept, fun h => hnot ((shared_iff hl hr hkept.1 hkept.2).mp h)⟩

/-- Of items that the other side has not lost, two filters leave what the one on everything does. -/
theorem filter_append_eq {α : Type} (commit : α → Commitment) {ls rs : List α}
    (hls : ∀ a ∈ ls, keptR (commit a) = true) (hrs : ∀ a ∈ rs, keptL (commit a) = true) :
    (((ls.filter fun a => keptL (commit a)) ++ rs.filter fun a => keptR (commit a)).filter
      fun a => !decide ((l.append r).Shared (commit a))) =
      (ls ++ rs).filter fun a => !decide ((wl.append wr).Shared (commit a)) := by
  rw [List.filter_append, List.filter_append, List.filter_filter, List.filter_filter]
  have h := fun a => kept_and_not_shared hl hr (c := commit a)
  refine congrArg₂ (· ++ ·) ?_ ?_
  · refine List.filter_congr fun a ha => ?_
    have ha' := h a
    rw [hls a ha] at ha'
    rw [Bool.eq_iff_iff]
    simpa [and_comm] using ha'
  · refine List.filter_congr fun a ha => ?_
    have ha' := h a
    rw [hrs a ha] at ha'
    rw [Bool.eq_iff_iff]
    simpa [and_comm] using ha'

variable (hinputs : (wl.append wr).inputCommits.Nodup)
  (houtputs : (wl.append wr).outputCommits.Nodup)

include hinputs houtputs

/-- Without repeated commitments neither side has lost what the other one holds. -/
theorem kept_of_mem {c : Commitment} :
    (c ∈ wl.inputCommits ∨ c ∈ wl.outputCommits → keptR c = true) ∧
      (c ∈ wr.inputCommits ∨ c ∈ wr.outputCommits → keptL c = true) := by
  rw [inputCommits_append] at hinputs
  rw [outputCommits_append] at houtputs
  have hin := List.disjoint_of_nodup_append hinputs
  have hout := List.disjoint_of_nodup_append houtputs
  constructor
  · intro hmem
    by_contra hlost
    obtain ⟨hin', hpays⟩ := hr.shared c (Bool.not_eq_true _ ▸ hlost)
    rcases hmem with hmem | hmem
    · exact hin hmem hin'
    · exact hout hmem (mem_outputCommits_of_pays hpays)
  · intro hmem
    by_contra hlost
    obtain ⟨hin', hpays⟩ := hl.shared c (Bool.not_eq_true _ ▸ hlost)
    rcases hmem with hmem | hmem
    · exact hin hin' hmem
    · exact hout (mem_outputCommits_of_pays hpays) hmem

/-- Merging what is left of two blocks leaves what cut-through leaves of both together. -/
theorem merge {b : Block} (h : l.merge r = .ok b) :
    b.inputs = (wl.append wr).cutThrough.inputs ∧ b.outputs = (wl.append wr).cutThrough.outputs ∧
      b.kernels = (wl.append wr).kernels := by
  obtain ⟨header, -, hcompact⟩ := bind_eq_ok.mp h
  obtain ⟨header', -, rfl⟩ := compact_eq_ok_iff.mp hcompact
  have hkept := fun c => kept_of_mem hl hr hinputs houtputs (c := c)
  -- what one side has cut is not on the other side, so cutting once or twice is the same
  refine ⟨?_, ?_, ?_⟩
  · rw [inputs_cutThrough (wl.append wr)]
    refine (inputs_cutThrough _).trans ?_
    show ((l.inputs ++ r.inputs).filter fun i => !decide ((l.append r).Shared i.commitment)) =
      (wl.inputs ++ wr.inputs).filter fun i => !decide ((wl.append wr).Shared i.commitment)
    rw [hl.inputs, hr.inputs]
    refine filter_append_eq hl hr Input.commitment (fun i hi => ?_) fun i hi => ?_
    · exact (hkept _).1 (.inl (List.mem_map_of_mem hi))
    · exact (hkept _).2 (.inl (List.mem_map_of_mem hi))
  · rw [outputs_cutThrough (wl.append wr)]
    refine (outputs_cutThrough _).trans ?_
    show ((l.outputs ++ r.outputs).filter fun o => !decide ((l.append r).Shared o.commit)) =
      (wl.outputs ++ wr.outputs).filter fun o => !decide ((wl.append wr).Shared o.commit)
    rw [hl.outputs, hr.outputs]
    refine filter_append_eq hl hr Output.commit (fun o ho => ?_) fun o ho => ?_
    · exact (hkept _).1 (.inr (List.mem_map_of_mem ho))
    · exact (hkept _).2 (.inr (List.mem_map_of_mem ho))
  · show l.kernels ++ r.kernels = wl.kernels ++ wr.kernels
    rw [hl.kernels, hr.kernels]

end Merge

end Reduced

end Block

namespace MergePlan

open Block

/-! ## Whole plans -/

/-- Whatever is appended in a merge, the whole has from all blocks. -/
theorem whole_eq_flatMap {α : Type} (items : Block → List α)
    (happend : ∀ b b' : Block, items (b.append b') = items b ++ items b') (p : MergePlan) :
    items p.whole = p.leaves.flatMap items := by
  induction p with
  | block b => simp [whole, leaves]
  | merge left right ihl ihr =>
    rw [whole, happend, ihl, ihr, leaves, List.flatMap_append]

theorem perm_whole {α : Type} (items : Block → List α)
    (happend : ∀ b b' : Block, items (b.append b') = items b ++ items b') {p : MergePlan}
    {blocks : List Block} (h : p.leaves.Perm blocks) :
    (items p.whole).Perm (blocks.flatMap items) := by
  rw [whole_eq_flatMap items happend]
  exact h.flatMap_right _

/-- The commitments of a plan are unrepeated. -/
structure Unrepeated (p : MergePlan) : Prop where
  inputs : p.whole.inputCommits.Nodup
  outputs : p.whole.outputCommits.Nodup

theorem unrepeated_merge {left right : MergePlan} : (merge left right).Unrepeated ↔
    (left.whole.inputCommits ++ right.whole.inputCommits).Nodup ∧
      (left.whole.outputCommits ++ right.whole.outputCommits).Nodup := by
  rw [← inputCommits_append, ← outputCommits_append]
  exact ⟨fun h => ⟨h.inputs, h.outputs⟩, fun h => ⟨h.1, h.2⟩⟩

theorem Unrepeated.left {left right : MergePlan} (h : (merge left right).Unrepeated) :
    left.Unrepeated := by
  obtain ⟨hinputs, houtputs⟩ := unrepeated_merge.mp h
  exact ⟨hinputs.of_append_left, houtputs.of_append_left⟩

theorem Unrepeated.right {left right : MergePlan} (h : (merge left right).Unrepeated) :
    right.Unrepeated := by
  obtain ⟨hinputs, houtputs⟩ := unrepeated_merge.mp h
  exact ⟨hinputs.of_append_right, houtputs.of_append_right⟩

theorem run_merge_eq_ok {left right : MergePlan} {b : Block} : (merge left right).run = .ok b ↔
    ∃ l, left.run = .ok l ∧ ∃ r, right.run = .ok r ∧ l.merge r = .ok b := by
  rw [run, bind_eq_ok]
  simp only [bind_eq_ok]

/-- What comes of a plan is what is left of everything in it. -/
theorem exists_reduced (p : MergePlan) (h : p.Unrepeated) {b : Block} (hrun : p.run = .ok b) :
    ∃ kept, Reduced p.whole b kept := by
  induction p generalizing b with
  | block b' =>
    cases hrun
    exact ⟨_, Reduced.refl b'⟩
  | merge left right ihl ihr =>
    obtain ⟨l, hl, r, hr, hmerge⟩ := run_merge_eq_ok.mp hrun
    obtain ⟨keptL, hl⟩ := ihl h.left hl
    obtain ⟨keptR, hr⟩ := ihr h.right hr
    obtain ⟨hinputs, houtputs, hkernels⟩ := Reduced.merge hl hr h.inputs h.outputs hmerge
    refine ⟨fun c => !decide ((merge left right).whole.Shared c), {
      inputs := hinputs.trans (inputs_cutThrough _)
      outputs := houtputs.trans (outputs_cutThrough _)
      kernels := hkernels
      shared := fun c hc => ?_ }⟩
    simpa using hc

/-- A plan of merges comes to one cut-through of everything. -/
theorem run_eq_cutThrough {left right : MergePlan} (h : (merge left right).Unrepeated) {b : Block}
    (hrun : (merge left right).run = .ok b) :
    b.inputs = (merge left right).whole.cutThrough.inputs ∧
      b.outputs = (merge left right).whole.cutThrough.outputs ∧
      b.kernels = (merge left right).whole.kernels := by
  obtain ⟨l, hl, r, hr, hmerge⟩ := run_merge_eq_ok.mp hrun
  obtain ⟨keptL, hl⟩ := exists_reduced left h.left hl
  obtain ⟨keptR, hr⟩ := exists_reduced right h.right hr
  exact Reduced.merge hl hr h.inputs h.outputs hmerge

/-- A block whose proof has its nonces can be merged with any other. -/
theorem merge_of_nonces {l : Block} (h : l.header.pow.nonces ≠ none) (r : Block) :
    ∃ b, l.merge r = .ok b ∧ b.header.pow.nonces ≠ none := by
  obtain ⟨nonces, hnonces⟩ := Option.ne_none_iff_exists'.mp h
  let pow : Proof := ⟨some nonces, UInt32.ofNat nonces.length⟩
  have hclone : l.header.clone = .ok { l.header with pow } := by
    rw [BlockHeader.clone, Proof.clone_eq_ok_iff.mpr ⟨nonces, hnonces, rfl⟩]
    rfl
  refine ⟨Block.cutThrough { l.append r with header := { l.header with pow } }, ?_, ?_⟩
  · rw [Block.merge, hclone, ok_bind]
    exact compact_of_whole ⟨nonces, rfl⟩
  · exact Option.some_ne_none _

/-- Without the nonces it cannot. -/
theorem merge_of_no_nonces {l : Block} (h : l.header.pow.nonces = none) (r : Block) :
    l.merge r = .error .nullReference := by
  rw [Block.merge, BlockHeader.clone, Proof.clone, h]
  rfl

/-- Blocks whose proofs have their nonces can be merged by every plan. -/
theorem exists_run (p : MergePlan) (h : ∀ b ∈ p.leaves, b.header.pow.nonces ≠ none) :
    ∃ b, p.run = .ok b ∧ b.header.pow.nonces ≠ none := by
  induction p with
  | block b => exact ⟨b, rfl, h b (List.mem_singleton_self b)⟩
  | merge left right ihl ihr =>
    obtain ⟨l, hl, hnonces⟩ := ihl fun b hb => h b (List.mem_append_left _ hb)
    obtain ⟨r, hr, -⟩ := ihr fun b hb => h b (List.mem_append_right _ hb)
    obtain ⟨b, hb, hbnonces⟩ := merge_of_nonces hnonces r
    exact ⟨b, run_merge_eq_ok.mpr ⟨l, hl, r, hr, hb⟩, hbnonces⟩

end MergePlan

namespace Block

/-! ## Orders and balances -/

/-- What cut-through leaves does not depend on the order of the inputs and of the outputs. -/
theorem cutThrough_perm {b b' : Block} (hinputs : b.inputs.Perm b'.inputs)
    (houtputs : b.outputs.Perm b'.outputs) :
    b.cutThrough.inputs.Perm b'.cutThrough.inputs ∧ b.cutThrough.outputs.Perm b'.cutThrough.outputs := by
  have hshared : ∀ c, b.Shared c ↔ b'.Shared c := by
    intro c
    simp only [Shared, inputCommits, List.mem_map, hinputs.mem_iff, houtputs.mem_iff]
  rw [inputs_cutThrough, inputs_cutThrough, outputs_cutThrough, outputs_cutThrough]
  simp only [hshared]
  exact ⟨hinputs.filter _, houtputs.filter _⟩

variable (P : Pedersen N E)

theorem balance_of_perm {b b' : Block} (hinputs : b.inputs.Perm b'.inputs)
    (houtputs : b.outputs.Perm b'.outputs) : b.balance P = b'.balance P := by
  have hin : P.pointSum b.inputCommits = P.pointSum b'.inputCommits :=
    ((hinputs.map Input.commitment).map P.point).sum_eq
  have hout : P.pointSum b.outputCommits = P.pointSum b'.outputCommits :=
    ((houtputs.map Output.commit).map P.point).sum_eq
  rw [balance, balance, hin, hout]

theorem balance_append (b b' : Block) :
    (b.append b').balance P = b.balance P + b'.balance P := by
  simp only [balance, inputCommits_append, outputCommits_append, P.pointSum_append]
  abel

theorem balance_cutThrough {b : Block} (hinputs : b.inputCommits.Nodup)
    (houtputs : b.outputCommits.Nodup) : b.cutThrough.balance P = b.balance P := by
  refine pointSum_cutThrough P fun c hc => ?_
  obtain ⟨hin, hpays⟩ := hc
  rw [List.count_eq_one_of_mem houtputs (mem_outputCommits_of_pays hpays),
    List.count_eq_one_of_mem hinputs hin]

end Block

namespace MergePlan

open Block

theorem balance_whole (P : Pedersen N E) (p : MergePlan) :
    p.whole.balance P = (p.leaves.map (Block.balance P)).sum := by
  induction p with
  | block b => simp [whole, leaves]
  | merge left right ihl ihr =>
    show (left.whole.append right.whole).balance P = _
    rw [balance_append, ihl, ihr, leaves, List.map_append, List.sum_append]

/-- Merges over the same blocks come to the same. -/
theorem run_perm {l r l' r' : MergePlan} {b b' : Block}
    (h : (merge l r).leaves.Perm (merge l' r').leaves) (hunp : (merge l r).Unrepeated)
    (hunq : (merge l' r').Unrepeated) (hb : (merge l r).run = .ok b)
    (hb' : (merge l' r').run = .ok b') :
    b.inputs.Perm b'.inputs ∧ b.outputs.Perm b'.outputs := by
  obtain ⟨hin, hout, -⟩ := run_eq_cutThrough hunp hb
  obtain ⟨hin', hout', -⟩ := run_eq_cutThrough hunq hb'
  rw [hin, hout, hin', hout']
  refine cutThrough_perm ?_ ?_
  · rw [whole_eq_flatMap Block.inputs (fun _ _ => rfl) (merge l' r')]
    exact perm_whole Block.inputs (fun _ _ => rfl) h
  · rw [whole_eq_flatMap Block.outputs (fun _ _ => rfl) (merge l' r')]
    exact perm_whole Block.outputs (fun _ _ => rfl) h

end MergePlan

namespace Block

/-- Three blocks merge, in every order and with every grouping, to the same inputs, outputs and
kernels; all kernels are kept, and the balance is the sum of the three. -/
structure MergesAlike (P : Pedersen N E) (x y z : Block) : Prop where
  returns : ∀ p : MergePlan, p.leaves.Perm [x, y, z] → ∃ b, p.run = .ok b
  same : ∀ (p q : MergePlan) (b b' : Block), p.leaves.Perm [x, y, z] → q.leaves.Perm [x, y, z] →
    p.run = .ok b → q.run = .ok b' →
    b.inputs.Perm b'.inputs ∧ b.outputs.Perm b'.outputs ∧ b.kernels.Perm b'.kernels
  kernels : ∀ (p : MergePlan) (b : Block), p.leaves.Perm [x, y, z] → p.run = .ok b →
    b.kernels.Perm (x.kernels ++ y.kernels ++ z.kernels)
  balance : ∀ (p : MergePlan) (b : Block), p.leaves.Perm [x, y, z] → p.run = .ok b →
    b.balance P = x.balance P + y.balance P + z.balance P

section Three

variable {x y z : Block}

/-- A plan over three blocks merges. -/
theorem exists_merge {p : MergePlan} (h : p.leaves.Perm [x, y, z]) : ∃ l r, p = .merge l r := by
  cases p with
  | block b => exact absurd h.length_eq (by simp [MergePlan.leaves])
  | merge l r => exact ⟨l, r, rfl⟩

variable (hinputs : (x.inputCommits ++ y.inputCommits ++ z.inputCommits).Nodup)
  (houtputs : (x.outputCommits ++ y.outputCommits ++ z.outputCommits).Nodup)

include hinputs houtputs

theorem unrepeated_of_perm {p : MergePlan} (h : p.leaves.Perm [x, y, z]) : p.Unrepeated where
  inputs := by
    have hperm := MergePlan.perm_whole inputCommits inputCommits_append h
    rw [hperm.nodup_iff]
    simpa using hinputs
  outputs := by
    have hperm := MergePlan.perm_whole outputCommits outputCommits_append h
    rw [hperm.nodup_iff]
    simpa using houtputs

theorem kernels_of_run {p : MergePlan} {b : Block} (h : p.leaves.Perm [x, y, z])
    (hb : p.run = .ok b) : b.kernels.Perm (x.kernels ++ y.kernels ++ z.kernels) := by
  obtain ⟨kept, hreduced⟩ := p.exists_reduced (unrepeated_of_perm hinputs houtputs h) hb
  have hperm : p.whole.kernels.Perm ([x, y, z].flatMap Block.kernels) :=
    MergePlan.perm_whole Block.kernels (fun _ _ => rfl) h
  rw [hreduced.kernels]
  simpa using hperm

theorem balance_of_run (P : Pedersen N E) {p : MergePlan} {b : Block}
    (h : p.leaves.Perm [x, y, z]) (hb : p.run = .ok b) :
    b.balance P = x.balance P + y.balance P + z.balance P := by
  have hun := unrepeated_of_perm hinputs houtputs h
  obtain ⟨l, r, rfl⟩ := exists_merge h
  obtain ⟨hin, hout, -⟩ := MergePlan.run_eq_cutThrough hun hb
  calc b.balance P
      = (MergePlan.merge l r).whole.cutThrough.balance P :=
        balance_of_perm P (.of_eq hin) (.of_eq hout)
    _ = (MergePlan.merge l r).whole.balance P := balance_cutThrough P hun.inputs hun.outputs
    _ = ([x, y, z].map (balance P)).sum := by
        rw [MergePlan.balance_whole]
        exact (h.map _).sum_eq
    _ = x.balance P + y.balance P + z.balance P := by
        simp only [List.map_cons, List.map_nil, List.sum_cons, List.sum_nil, add_zero, add_assoc]

end Three

/-- The left block of the first merge needs the nonces of its proof. -/
theorem nonces_of_run {x y z b : Block}
    (h : (MergePlan.merge (.merge (.block x) (.block y)) (.block z)).run = .ok b) :
    x.header.pow.nonces ≠ none := by
  intro hnone
  obtain ⟨l, hl, -⟩ := MergePlan.run_merge_eq_ok.mp h
  obtain ⟨x', hx', y', -, hmerge⟩ := MergePlan.run_merge_eq_ok.mp hl
  cases hx'
  rw [MergePlan.merge_of_no_nonces hnone] at hmerge
  cases hmerge

/-- Three blocks without repeated commitments merge alike exactly when the proofs of all three have
their nonces. -/
theorem mergesAlike_iff (P : Pedersen N E) (x y z : Block)
    (hinputs : (x.inputCommits ++ y.inputCommits ++ z.inputCommits).Nodup)
    (houtputs : (x.outputCommits ++ y.outputCommits ++ z.outputCommits).Nodup) :
    MergesAlike P x y z ↔ ∀ b ∈ [x, y, z], b.header.pow.nonces ≠ none := by
  constructor
  · intro h
    -- every block comes first in some plan
    have hfirst : ∀ x' y' z' : Block, [x', y', z'].Perm [x, y, z] →
        x'.header.pow.nonces ≠ none := by
      intro x' y' z' hperm
      obtain ⟨b, hb⟩ := h.returns (.merge (.merge (.block x') (.block y')) (.block z')) hperm
      exact nonces_of_run hb
    have hz : [z, x, y].Perm [x, y, z] := (List.perm_append_comm : ([z] ++ [x, y]).Perm _)
    simp only [List.forall_mem_cons, List.not_mem_nil, false_implies, implies_true, and_true]
    exact ⟨hfirst x y z (.refl _), hfirst y x z (.swap x y [z]), hfirst z x y hz⟩
  · intro h
    refine {
      returns := fun p hp => ?_
      same := fun p q b b' hp hq hb hb' => ?_
      kernels := fun p b hp hb => kernels_of_run hinputs houtputs hp hb
      balance := fun p b hp hb => balance_of_run hinputs houtputs P hp hb }
    · obtain ⟨b, hb, -⟩ := p.exists_run fun b hb => h b (hp.mem_iff.mp hb)
      exact ⟨b, hb⟩
    · have hun := unrepeated_of_perm hinputs houtputs hp
      have hun' := unrepeated_of_perm hinputs houtputs hq
      have hkernels := kernels_of_run hinputs houtputs hp hb
      have hkernels' := kernels_of_run hinputs houtputs hq hb'
      obtain ⟨l, r, rfl⟩ := exists_merge hp
      obtain ⟨l', r', rfl⟩ := exists_merge hq
      obtain ⟨hin, hout⟩ := MergePlan.run_perm (hp.trans hq.symm) hun hun' hb hb'
      exact ⟨hin, hout, hkernels.trans hkernels'.symm⟩

/-- A block over pairs under a proof. -/
def pairLink (pow : Proof) (inputs : List Input) (outputs : List Output) : Block where
  header := { BlockHeader.default 0 with pow }
  inputs
  outputs
  kernels := [{
    features := KernelFeatures.defaultKernel
    fee := 0
    lockHeight := 0
    excess := ⟨Pairs.save 0 1⟩
    excessSig := [] }]

/-- A block that pays an output. -/
def pairPaying (pow : Proof) : Block := pairLink pow [] [pairCut OutputFeatures.defaultOutput]

/-- A block that spends it and pays another. -/
def pairPassing (pow : Proof) : Block :=
  pairLink pow [⟨⟨Pairs.save 5 1⟩⟩]
    [{ pairCut OutputFeatures.defaultOutput with commit := ⟨Pairs.save 4 1⟩ }]

/-- A block that spends that one. -/
def pairSpending (pow : Proof) : Block := pairLink pow [⟨⟨Pairs.save 4 1⟩⟩] []

theorem mergesAlike_iff_pairs :
    MergesAlike Pairs.pedersen (pairPaying (Proof.zero 42)) (pairPassing (Proof.zero 42))
      (pairSpending (Proof.zero 42)) :=
  (mergesAlike_iff Pairs.pedersen _ _ _ (by decide +kernel) (by decide +kernel)).mpr (by
    simp [pairPaying, pairPassing, pairSpending, pairLink, Proof.zero])

/-- With the proof that is read off the wire they do not merge. -/
theorem wire_not_mergesAlike :
    ((pairPaying ⟨none, 0⟩).inputCommits ++ (pairPassing ⟨none, 0⟩).inputCommits ++
      (pairSpending ⟨none, 0⟩).inputCommits).Nodup ∧
    ((pairPaying ⟨none, 0⟩).outputCommits ++ (pairPassing ⟨none, 0⟩).outputCommits ++
      (pairSpending ⟨none, 0⟩).outputCommits).Nodup ∧
    (pairPaying ⟨none, 0⟩).merge (pairPassing ⟨none, 0⟩) = .error .nullReference ∧
    ¬ MergesAlike Pairs.pedersen (pairPaying ⟨none, 0⟩) (pairPassing ⟨none, 0⟩)
      (pairSpending ⟨none, 0⟩) := by
  refine ⟨by decide +kernel, by decide +kernel, rfl, fun h => ?_⟩
  obtain ⟨b, hb⟩ := h.returns (.merge (.merge (.block _) (.block _)) (.block _)) (.refl _)
  exact nonces_of_run hb rfl

end Block

end GrinDotnet
