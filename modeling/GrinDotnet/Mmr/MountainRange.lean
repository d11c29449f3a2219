import GrinDotnet.Lib.MountainRange
import GrinDotnet.Lib.Run
import GrinDotnet.Mmr.Navigation
import GrinDotnet.Secp.Pairs

/-!
# The prunable mountain range

`PMMR` of the original node over any storage backend: leaves are pushed, together with the parents they
complete, and leaves that are no longer needed are pruned, together with the parents that lose both children.
A failing operation, which ends the program, is `none`.

Results:
1. `push_spec`, `prune_spec`: what one operation makes of the stored nodes.
2. `commits_of_run`: after any run of pushes and prunings the root is the one of all leaves that were pushed,
   its sum is worth what all elements are worth together wherever additions keep the worth, and a node is
   missing only when all its leaves were pruned.
3. `point_root`: the range of the outputs commits to the sum of their commitments, unless neighbouring
   outputs cancel.
-/

namespace GrinDotnet

namespace Pmmr

open BigEndian PostOrder

/-! ## Hash sums -/

/-- `HashSum`. -/
structure HashSum (H S : Type) where
  hash : H
  sum : S
deriving DecidableEq

/-- `Summable` and `Hashed`: what the tree needs of its elements and hashes. -/
structure Hashing (T W H S : Type) where
  sum : T → S
  hash : T → H
  hashWith : T → W → H
  /-- The hash of an index, a sum and a hash. -/
  hashNode : ℕ → S → H → H
  /-- The hash of two hashes. -/
  hashPair : H → H → H

namespace HashSum

variable {T W H S : Type} (A : Hashing T W H S)

/-- `HashSum::from_summable`. -/
def fromSummable (idx : ℕ) (elmt : T) (hashWith : Option W) : HashSum H S :=
  let hash := match hashWith with
    | some h => A.hashWith elmt h
    | none => A.hash elmt
  let sum := A.sum elmt
  { hash := A.hashNode idx sum hash, sum }

/-- `HashSum::add`. -/
def add [Add S] (self other : HashSum H S) : HashSum H S :=
  { hash := A.hashPair self.hash other.hash, sum := self.sum + other.sum }

end HashSum

/-! ## Backends -/

/-- `Backend`: a storage of nodes by their position. -/
structure Backend (β α : Type) where
  append : β → ℕ → List α → Option β
  get : β → ℕ → Option (Option α)
  remove : β → List ℕ → ℕ → Option β

/-- A backend that stores what it is given: its states, and the nodes a state stores. -/
structure Backend.Lawful {β α : Type} (B : Backend β α) (valid : β → Prop)
    (stored : β → List (Option α)) : Prop where
  get : ∀ b p, valid b → 0 < p → p ≤ (stored b).length → B.get b p = (stored b)[p - 1]?
  append : ∀ b data, valid b → ∃ b', B.append b ((stored b).length + 1) data = some b' ∧ valid b' ∧
    stored b' = stored b ++ data.map some
  remove : ∀ b positions index, valid b → (∀ p ∈ positions, 0 < p ∧ p ≤ (stored b).length) →
    ∃ b', B.remove b positions index = some b' ∧ valid b' ∧ stored b' = forget (stored b) positions

/-- `VecBackend`: a vector of nodes. Reading and removing fail outside of it. -/
def vecBackend (α : Type) : Backend (List (Option α)) α where
  append elems _ data := some (elems ++ data.map some)
  get elems position := if position = 0 then none else elems[position - 1]?
  remove elems positions _ :=
    positions.foldlM (fun elems n => if n = 0 ∨ elems.length < n then none else some (elems.set (n - 1) none)) elems

/-- The vector is a backend that stores what it is given. -/
theorem vecBackend_lawful (α : Type) : (vecBackend α).Lawful (fun _ => True) id where
  get b p _ hpos _ := if_neg hpos.ne'
  append b data _ := ⟨_, rfl, trivial, rfl⟩
  remove b positions index _ hrange := by
    refine ⟨forget b positions, ?_, trivial, rfl⟩
    simp only [vecBackend]
    induction positions generalizing b with
    | nil => rfl
    | cons n positions ih =>
      obtain ⟨hpos, hle⟩ := hrange n (by simp)
      have hin : ¬ (n = 0 ∨ b.length < n) := by
        rintro (h | h)
        · exact hpos.ne' h
        · exact absurd h (not_lt.mpr hle)
      rw [List.foldlM_cons, if_neg hin]
      exact ih (b.set (n - 1) none) fun p hp => by
        rw [id_eq, List.length_set]
        exact hrange p (List.mem_cons_of_mem _ hp)

/-! ## The range -/

/-- `PMMR`. -/
structure PMMR (β : Type) where
  lastPos : ℕ
  backend : β
deriving DecidableEq

section Operations

variable {T W H S β : Type} [Add S] (A : Hashing T W H S) (B : Backend β (HashSum H S))

/-- One round of the loop of `root`. -/
def bag (ret peak : Option (HashSum H S)) : Option (HashSum H S) :=
  match ret, peak with
  | none, x => x
  | some hsum, none => some hsum
  | some lhsum, some rhsum => some (lhsum.add A rhsum)

/-- `PMMR::root`. -/
def PMMR.root (self : PMMR β) : Option (HashSum H S) := do
  let peaks ← (peaks self.lastPos).mapM (B.get self.backend)
  peaks.foldl (bag A) none

/-- The loop of `PMMR::push`: the nodes to append behind the leaf, and the last position. -/
def pushLoop (backend : β) : ℕ → ℕ → ℕ → HashSum H S → Option (List (HashSum H S) × ℕ)
  | 0, _, _, _ => none
  | fuel + 1, height, pos, current =>
    if bintreePostorderHeight (pos + 1) > height then
      match B.get backend (bintreeJumpLeftSibling pos) with
      | some (some left) =>
        let current := left.add A current
        (pushLoop backend fuel (height + 1) (pos + 1) current).map fun (toAppend, pos) => (current :: toAppend, pos)
      | _ => none
    else some ([], pos)

/-- `PMMR::push`: the range, and the position of the leaf. -/
def PMMR.push (self : PMMR β) (elmt : T) (hashWith : Option W) : Option (PMMR β × ℕ) := do
  let elmtPos := self.lastPos + 1
  let current := HashSum.fromSummable A elmtPos elmt hashWith
  let (toAppend, pos) ← pushLoop A B self.backend (elmtPos + 1) 0 elmtPos current
  let backend ← B.append self.backend elmtPos (current :: toAppend)
  return ({ lastPos := pos, backend }, elmtPos)

/-- The loop of `PMMR::prune`: the positions to remove. -/
def pruneLoop (lastPos : ℕ) (backend : β) : ℕ → ℕ → Option (List ℕ)
  | 0, _ => none
  | fuel + 1, current =>
    if current + 1 < lastPos then
      let (parent, sibling) := family current
      if parent > lastPos then some []
      else
        match B.get backend sibling with
        | none => none
        | some none => (pruneLoop lastPos backend fuel parent).map (current :: ·)
        | some (some _) => some [current]
    else some []

/-- `PMMR::prune`: the range, and what is returned. -/
def PMMR.prune (self : PMMR β) (position index : ℕ) : Option (PMMR β × Except String Bool) := do
  match ← B.get self.backend position with
  | none => return (self, .ok false)
  | some _ =>
    if bintreePostorderHeight position > 0 then
      return (self, .error s!"Node at {position} is not a leaf, can't prune.")
    let toPrune ← pruneLoop B self.lastPos self.backend (self.lastPos + 1) position
    let backend ← B.remove self.backend toPrune index
    return ({ self with backend }, .ok true)

end Operations

/-! ## One operation -/

section Steps

variable {T W H S β : Type} [Add S] {A : Hashing T W H S} {B : Backend β (HashSum H S)}
  {valid : β → Prop} {stored : β → List (Option (HashSum H S))} {vals : List (HashSum H S)} {asked : ℕ → Prop}

/-- The state of a range over leaves. -/
structure Over (A : Hashing T W H S) (valid : β → Prop) (stored : β → List (Option (HashSum H S)))
    (vals : List (HashSum H S)) (asked : ℕ → Prop) (s : PMMR β) : Prop where
  valid : valid s.backend
  lastPos_eq : s.lastPos = nodes vals.length
  kept : Kept (HashSum.add A) vals asked (stored s.backend)

theorem Over.mono {asked' : ℕ → Prop} {s : PMMR β} (hover : Over A valid stored vals asked s)
    (h : ∀ m, asked m → asked' m) : Over A valid stored vals asked' s :=
  { hover with kept := hover.kept.mono h }

/-- A node that is there is read as it is stored. -/
theorem Over.get {s : PMMR β} (hB : B.Lawful valid stored) (hover : Over A valid stored vals asked s) {k h : ℕ}
    (hle : (k + 1) * 2 ^ h ≤ vals.length) : B.get s.backend (pos k h) = (stored s.backend)[pos k h - 1]? := by
  refine hB.get _ _ hover.valid (pos_pos k h) ?_
  rw [hover.kept.length_eq]
  exact pos_le_nodes_iff.mpr hle

/-- The loop of a push climbs as long as the node is a right child. -/
theorem pushLoop_eq {s : PMMR β} (hB : B.Lawful valid stored) (hover : Over A valid stored vals asked s)
    (x : HashSum H S) {fuel i : ℕ} {current : HashSum H S} (hfuel : vals.length + 2 ≤ fuel + i)
    (hi : i ≤ vals.length) (hpos : pos (vals.length / 2 ^ i) i = pos vals.length 0 + i)
    (hcurrent : tree (HashSum.add A) (vals ++ [x]) (vals.length / 2 ^ i) i = some current) :
    ∃ rest t, pushLoop A B s.backend fuel i (pos (vals.length / 2 ^ i) i) current =
        some (rest, nodes (vals.length + 1)) ∧ i + rest.length = t ∧
      nodes (vals.length + 1) = nodes vals.length + (t + 1) ∧
      ∀ j, i + j + 1 ≤ t →
        rest[j]? = tree (HashSum.add A) (vals ++ [x]) (vals.length / 2 ^ (i + j + 1)) (i + j + 1) := by
  induction fuel generalizing i current with
  | zero => omega
  | succ fuel ih =>
    have hdiv : vals.length / 2 ^ (i + 1) = vals.length / 2 ^ i / 2 := by
      rw [pow_succ, Nat.div_div_eq_div_mul]
    have hmul := Nat.div_mul_le_self vals.length (2 ^ i)
    rw [pushLoop]
    rcases Nat.even_or_odd' (vals.length / 2 ^ i) with ⟨c, hc | hc⟩
    · -- a left child: the next position is a leaf
      rw [hc] at hpos ⊢
      have hlast := pos_last_leaf (2 * c) i
      have hnext := pos_leaf_of_even c i
      have hpositive : 0 < (2 * c + 1) * 2 ^ i := Nat.mul_pos (Nat.succ_pos _) (Nat.two_pow_pos i)
      obtain ⟨hlength, -⟩ := pos_inj (show pos ((2 * c + 1) * 2 ^ i - 1) 0 = pos vals.length 0 by omega)
      have hsucc : (2 * c + 1) * 2 ^ i = vals.length + 1 := by omega
      rw [hsucc, pos_leaf] at hnext
      rw [pos_leaf] at hpos
      rw [height_succ_of_left, if_neg (Nat.not_lt_zero i)]
      have hend : pos (2 * c) i = nodes (vals.length + 1) := by omega
      exact ⟨[], i, by rw [hend], rfl, by omega, fun j hj => absurd hj (by omega)⟩
    · have hparent : vals.length / 2 ^ (i + 1) = c := by omega
      have hleft : (2 * c + 1) * 2 ^ i ≤ vals.length := hc ▸ hmul
      have hpeak : vals.length < (2 * c / 2 + 1) * 2 ^ (i + 1) := by
        have hlt := Nat.lt_mul_of_div_lt (show vals.length / 2 ^ (i + 1) < c + 1 by omega) (Nat.two_pow_pos (i + 1))
        have hhalf : 2 * c / 2 = c := by omega
        rw [hhalf]
        exact hlt
      obtain ⟨l, hl⟩ := exists_tree (HashSum.add A) hleft
      have hget : B.get s.backend (pos (2 * c) i) = some (some l) := by
        rw [hover.get hB hleft, hover.kept.peak hleft hpeak, hl]
      have htree : tree (HashSum.add A) (vals ++ [x]) (vals.length / 2 ^ (i + 1)) (i + 1) =
          some (l.add A current) := by
        rw [hc] at hcurrent
        rw [hparent, tree, tree_append [x] hleft, hl, hcurrent, join]
      have hstep := pos_two_mul_add_one c i
      have hpow : i < 2 ^ i := Nat.lt_two_pow_self
      have hpositive : 2 ^ i ≤ (2 * c + 1) * 2 ^ i := Nat.le_mul_of_pos_left _ (Nat.succ_pos _)
      rw [hc] at hpos
      obtain ⟨rest, t, hloop, hlen, hend, hrest⟩ :=
        ih (i := i + 1) (by omega) (by omega) (by rw [hparent]; omega) htree
      rw [hparent, ← hstep] at hloop
      rw [hc, height_succ_of_right, if_pos (Nat.lt_succ_self i), bintreeJumpLeftSibling_pos, hget]
      simp only
      rw [hloop]
      refine ⟨l.add A current :: rest, t, rfl, by rw [List.length_cons]; omega, hend, fun j hj => ?_⟩
      cases j with
      | zero => exact htree.symm
      | succ j =>
        have hexp : i + 1 + j + 1 = i + (j + 1) + 1 := by omega
        rw [List.getElem?_cons_succ, hrest j (by omega), hexp]

/-- A push stores a leaf and the parents it completes. It never fails. -/
theorem push_spec {s : PMMR β} (hB : B.Lawful valid stored) (hover : Over A valid stored vals asked s) (elmt : T)
    (hashWith : Option W) :
    ∃ s', s.push A B elmt hashWith = some (s', pos vals.length 0) ∧
      Over A valid stored (vals ++ [HashSum.fromSummable A (pos vals.length 0) elmt hashWith]) asked s' := by
  have hleaf : s.lastPos + 1 = pos vals.length 0 := by rw [hover.lastPos_eq, pos_leaf]
  generalize hx : HashSum.fromSummable A (pos vals.length 0) elmt hashWith = x
  have hzero : vals.length / 2 ^ 0 = vals.length := by rw [pow_zero, Nat.div_one]
  have htree : tree (HashSum.add A) (vals ++ [x]) (vals.length / 2 ^ 0) 0 = some x := by
    rw [hzero, tree]
    simp
  have hnodes : vals.length ≤ nodes vals.length := by
    have hones := ones_le vals.length
    simp only [nodes]
    omega
  have hfuel : vals.length + 2 ≤ pos vals.length 0 + 1 + 0 := by
    rw [pos_leaf]
    omega
  obtain ⟨rest, t, hloop, hlen, hend, hrest⟩ :=
    pushLoop_eq hB hover x hfuel (Nat.zero_le _) (by rw [hzero, add_zero]) htree
  obtain ⟨b', happend, hvalid, hstored⟩ := hB.append s.backend (x :: rest) hover.valid
  rw [hover.kept.length_eq, ← pos_leaf] at happend
  rw [hzero] at hloop
  refine ⟨{ lastPos := nodes (vals.length + 1), backend := b' }, ?_, hvalid, by simp, ?_⟩
  · simp only [PMMR.push, hleaf, hx, hloop, happend, Option.bind_eq_bind, Option.bind_some, Option.pure_def]
  · rw [hstored]
    refine hover.kept.push x (t := t) ?_ hend fun i hi => ?_
    · rw [List.length_map, List.length_cons]
      omega
    · rw [List.getElem?_map]
      cases i with
      | zero =>
        rw [List.getElem?_cons_zero, htree]
        rfl
      | succ i =>
        have hr := hrest i (by omega)
        have hlt : i < rest.length := by omega
        rw [zero_add] at hr
        rw [List.getElem?_cons_succ, ← hr, List.getElem?_eq_getElem hlt]
        rfl

omit [Add S] in
/-- The loop of a pruning climbs as long as the sibling is gone and the parent is there. -/
theorem pruneLoop_eq {s : PMMR β} (hlast : s.lastPos = nodes vals.length)
    (hget : ∀ k h, (k + 1) * 2 ^ h ≤ vals.length → ∃ x, B.get s.backend (pos k h) = some x ∧
      (stored s.backend)[pos k h - 1]? = some x) {fuel k h : ℕ} (hle : (k + 1) * 2 ^ h ≤ vals.length)
    (hfuel : s.lastPos < fuel + pos k h) :
    ∃ len, pruneLoop B s.lastPos s.backend fuel (pos k h) =
        some ((List.range len).map fun i => pos (k / 2 ^ i) (h + i)) ∧
      (∀ i < len, (k / 2 ^ (i + 1) + 1) * 2 ^ (h + i + 1) ≤ vals.length) ∧
      ∀ i, i + 1 < len → (stored s.backend)[pos (k / 2 ^ i ^^^ 1) (h + i) - 1]? = some none := by
  induction fuel generalizing k h with
  | zero =>
    have hthere := pos_le_nodes_iff.mpr hle
    omega
  | succ fuel ih =>
    have hnone : ∃ len, some ([] : List ℕ) = some ((List.range len).map fun i => pos (k / 2 ^ i) (h + i)) ∧
        (∀ i < len, (k / 2 ^ (i + 1) + 1) * 2 ^ (h + i + 1) ≤ vals.length) ∧
        ∀ i, i + 1 < len → (stored s.backend)[pos (k / 2 ^ i ^^^ 1) (h + i) - 1]? = some none :=
      ⟨0, rfl, fun i hi => absurd hi (Nat.not_lt_zero i), fun i hi => absurd hi (Nat.not_lt_zero _)⟩
    rw [pruneLoop]
    split
    · rw [family_pos]
      simp only
      split
      · exact hnone
      · next hparent =>
        rw [hlast, not_lt, pos_le_nodes_iff] at hparent
        obtain ⟨x, hread, hstored⟩ := hget _ _ (sibling_le hparent)
        have hzero : pos k h = pos (k / 2 ^ 0) (h + 0) := by rw [pow_zero, Nat.div_one, add_zero]
        rw [hread]
        cases x with
        | some x =>
          refine ⟨1, congrArg (fun p => some [p]) hzero, fun i hi => ?_, fun i hi => absurd hi (by omega)⟩
          obtain rfl : i = 0 := by omega
          simpa using hparent
        | none =>
          have hup := pos_lt_parent k h
          have hdiv (i : ℕ) : k / 2 ^ (i + 1) = k / 2 / 2 ^ i := by
            rw [pow_succ', Nat.div_div_eq_div_mul]
          have hexp (i : ℕ) : h + (i + 1) = h + 1 + i := by omega
          obtain ⟨len, hloop, hparents, hsiblings⟩ := ih hparent (by omega)
          simp only
          rw [hloop]
          refine ⟨len + 1, ?_, fun i hi => ?_, fun i hi => ?_⟩
          · have hrest : (fun i => pos (k / 2 ^ i) (h + i)) ∘ Nat.succ = fun i => pos (k / 2 / 2 ^ i) (h + 1 + i) := by
              funext i
              rw [Function.comp_apply, Nat.succ_eq_add_one, hdiv, hexp]
            rw [Option.map_some, List.range_succ_eq_map, List.map_cons, List.map_map, ← hzero, hrest]
          · cases i with
            | zero => simpa using hparent
            | succ i =>
              rw [hdiv, hexp]
              exact hparents i (by omega)
          · cases i with
            | zero => simpa using hstored
            | succ i =>
              rw [hdiv, hexp]
              exact hsiblings i (by omega)
    · exact hnone

/-- A pruning of a position that is there forgets what later leaves do not need. It never fails. -/
theorem prune_spec {s : PMMR β} (hB : B.Lawful valid stored) (hover : Over A valid stored vals asked s)
    {position : ℕ} (hpos : 0 < position) (hle : position ≤ s.lastPos) (index : ℕ) :
    ∃ s' r, s.prune B position index = some (s', r) ∧
      Over A valid stored vals (fun m => asked m ∨ position = pos m 0) s' := by
  have hweaker : Over A valid stored vals (fun m => asked m ∨ position = pos m 0) s :=
    ⟨hover.valid, hover.lastPos_eq,
      { hover.kept with asked := fun m hm hnone => .inl (hover.kept.asked m hm hnone) }⟩
  have hget (k h : ℕ) (hthere : (k + 1) * 2 ^ h ≤ vals.length) : ∃ x, B.get s.backend (pos k h) = some x ∧
      (stored s.backend)[pos k h - 1]? = some x := by
    have hin := List.getElem?_eq_getElem (hover.kept.pos_le hthere)
    exact ⟨_, (hover.get hB hthere).trans hin, hin⟩
  obtain ⟨k, h, rfl⟩ := exists_pos hpos
  rw [hover.lastPos_eq, pos_le_nodes_iff] at hle
  obtain ⟨x, hread, -⟩ := hget k h hle
  cases x with
  | none => exact ⟨s, .ok false, by simp [PMMR.prune, hread], hweaker⟩
  | some x =>
    cases h with
    | succ h =>
      have hinner : 0 < bintreePostorderHeight (pos k (h + 1)) := by
        rw [bintreePostorderHeight_pos]
        exact Nat.succ_pos h
      refine ⟨s, .error s!"Node at {pos k (h + 1)} is not a leaf, can't prune.", ?_, hweaker⟩
      simp only [PMMR.prune, hread, Option.bind_eq_bind, Option.bind_some, if_pos hinner]
      rfl
    | zero =>
      obtain ⟨len, hloop, hparents, hsiblings⟩ :=
        pruneLoop_eq hover.lastPos_eq hget hle (show s.lastPos < s.lastPos + 1 + pos k 0 by omega)
      simp only [zero_add] at hloop hparents hsiblings
      have hrange : ∀ p ∈ (List.range len).map (fun i => pos (k / 2 ^ i) i),
          0 < p ∧ p ≤ (stored s.backend).length := by
        rintro p hp
        obtain ⟨i, hi, rfl⟩ := List.mem_map.mp hp
        refine ⟨pos_pos _ _, ?_⟩
        have hparent := hparents i (List.mem_range.mp hi)
        rw [pow_succ, ← Nat.div_div_eq_div_mul] at hparent
        rw [hover.kept.length_eq, pos_le_nodes_iff]
        exact le_of_parent hparent
      obtain ⟨b', hremove, hvalid, hstored⟩ := hB.remove s.backend _ index hover.valid hrange
      refine ⟨{ s with backend := b' }, .ok true, ?_, hvalid, hover.lastPos_eq, ?_⟩
      · simp [PMMR.prune, hread, hloop, hremove]
      · rw [hstored]
        have hkept := hover.kept.prune hparents hsiblings
        refine { hkept with asked := fun m hm hnone => ?_ }
        rcases hkept.asked m hm hnone with hasked | rfl
        · exact .inl hasked
        · exact .inr rfl

/-! ## The root -/

/-- The root is what all trees make together, from the left. -/
theorem root_spec {s : PMMR β} (hB : B.Lawful valid stored) (hover : Over A valid stored vals asked s)
    (hvals : vals ≠ []) : s.root A B = bagged (HashSum.add A) vals := by
  have hlength : vals.length ≠ 0 := List.length_eq_zero_iff.not.mpr hvals
  have hread : ∀ row : List (ℕ × ℕ), (∀ node ∈ row, node ∈ peakNodes vals.length) →
      (row.map fun (k, h) => pos k h).mapM (B.get s.backend) =
        some (row.map fun (k, h) => tree (HashSum.add A) vals k h) := by
    intro row hrow
    induction row with
    | nil => rfl
    | cons node row ih =>
      obtain ⟨hle, hlt⟩ := of_mem_peaksBelow (hrow node (by simp))
      have hnode : B.get s.backend (pos node.1 node.2) = some (tree (HashSum.add A) vals node.1 node.2) :=
        (hover.get hB hle).trans (hover.kept.peak hle hlt)
      have hrest := ih fun n hn => hrow n (List.mem_cons_of_mem _ hn)
      rw [List.map_cons, List.mapM_cons, hnode, hrest]
      rfl
  have hbag : bag A = bagStep (HashSum.add A) := by
    funext ret peak
    cases ret <;> cases peak <;> rfl
  rw [PMMR.root, hover.lastPos_eq, peaks_nodes hlength, hread _ fun _ h => h, hbag, bagged, List.foldl_map.symm]
  rfl

end Steps

/-! ## Runs -/

section Runs

variable {T W H S β : Type}

/-- An operation on a range. -/
inductive Op (T W : Type) where
  | push (elmt : T) (hashWith : Option W)
  | prune (position index : ℕ)

/-- What was pushed. -/
def Op.pushed? : Op T W → Option (T × Option W)
  | push elmt hashWith => some (elmt, hashWith)
  | prune _ _ => none

/-- The elements that were pushed, in their order. -/
def pushed (history : List (Op T W)) : List (T × Option W) := history.filterMap Op.pushed?

/-- The leaves of elements. -/
def leaves (A : Hashing T W H S) (elmts : List (T × Option W)) : List (HashSum H S) :=
  elmts.mapIdx fun i (elmt, hashWith) => HashSum.fromSummable A (pos i 0) elmt hashWith

/-- The leaf was given to a pruning. -/
def Pruned (history : List (Op T W)) (m : ℕ) : Prop := ∃ index, Op.prune (pos m 0) index ∈ history

/-- `PMMR::new`: the range without a node. -/
def PMMR.new (backend : β) : PMMR β := { lastPos := 0, backend }

/-- An operation that returned. A pruning is of a position that is there. -/
inductive Step [Add S] (A : Hashing T W H S) (B : Backend β (HashSum H S)) : PMMR β → Op T W → PMMR β → Prop
  | push {s s' : PMMR β} {elmt : T} {hashWith : Option W} {p : ℕ}
      (h : s.push A B elmt hashWith = some (s', p)) : Step A B s (.push elmt hashWith) s'
  | prune {s s' : PMMR β} {position index : ℕ} {r : Except String Bool} (hpos : 0 < position)
      (hle : position ≤ s.lastPos) (h : s.prune B position index = some (s', r)) :
      Step A B s (.prune position index) s'

variable [Add S] {A : Hashing T W H S} {B : Backend β (HashSum H S)} {valid : β → Prop}
  {stored : β → List (Option (HashSum H S))}

/-- The range commits to what was pushed, whatever was pruned. -/
structure Commits (A : Hashing T W H S) (B : Backend β (HashSum H S)) (history : List (Op T W))
    (s : PMMR β) : Prop where
  /-- The root is the one of all leaves. -/
  root : pushed history ≠ [] → ∃ x, s.root A B = some x ∧
    bagged (HashSum.add A) (leaves A (pushed history)) = some x
  /-- Its sum is worth what the elements are worth together, if additions keep the worth of sums that are
  good, and neighbouring elements have good sums. -/
  sum : ∀ {M : Type} [AddMonoid M] {f : S → M} {good : M → Prop}, AddsUp (· + ·) f good →
    GoodBlocks (fun elmt => f (A.sum elmt.1)) good (pushed history) → pushed history ≠ [] →
    (s.root A B).map (fun x => f x.sum) = some ((pushed history).map fun elmt => f (A.sum elmt.1)).sum
  /-- A node is there, or all its leaves were given to a pruning. -/
  node : ∀ k h, (k + 1) * 2 ^ h ≤ (pushed history).length →
    B.get s.backend (pos k h) = some (tree (HashSum.add A) (leaves A (pushed history)) k h) ∨
      B.get s.backend (pos k h) = some none ∧ ∀ m, m / 2 ^ h = k → Pruned history m
  /-- Every next operation returns. -/
  push : ∀ elmt hashWith, ∃ s', s.push A B elmt hashWith = some (s', pos (pushed history).length 0)
  prune : ∀ position index, 0 < position → position ≤ s.lastPos →
    ∃ s' r, s.prune B position index = some (s', r)

omit [Add S] in
@[simp] theorem length_leaves (A : Hashing T W H S) (elmts : List (T × Option W)) :
    (leaves A elmts).length = elmts.length := by simp [leaves]

omit [Add S] in
/-- The leaves are worth what the elements are worth. -/
theorem map_leaves {M : Type*} (A : Hashing T W H S) (elmts : List (T × Option W)) (f : S → M) :
    (leaves A elmts).map (fun x => f x.sum) = elmts.map fun elmt => f (A.sum elmt.1) := by
  refine List.ext_getElem (by simp) fun i h₁ h₂ => ?_
  simp [leaves, HashSum.fromSummable]

/-- One operation keeps what is stored in step with the history. -/
theorem over_step {s s' : PMMR β} {history : List (Op T W)} {op : Op T W} (hB : B.Lawful valid stored)
    (hover : Over A valid stored (leaves A (pushed history)) (Pruned history) s) (hstep : Step A B s op s') :
    Over A valid stored (leaves A (pushed (history ++ [op]))) (Pruned (history ++ [op])) s' := by
  have hmono (m : ℕ) (h : Pruned history m) : Pruned (history ++ [op]) m := by
    obtain ⟨index, hmem⟩ := h
    exact ⟨index, List.mem_append_left _ hmem⟩
  cases hstep with
  | @push _ elmt hashWith _ h =>
    obtain ⟨t, hpush, hnext⟩ := push_spec hB hover elmt hashWith
    obtain ⟨rfl, -⟩ := Prod.mk.inj (Option.some.inj (h.symm.trans hpush))
    have hleaves : leaves A (pushed (history ++ [.push elmt hashWith])) =
        leaves A (pushed history) ++
          [HashSum.fromSummable A (pos (leaves A (pushed history)).length 0) elmt hashWith] := by
      rw [length_leaves, pushed, List.filterMap_append, ← pushed, leaves, leaves]
      exact List.mapIdx_concat
    rw [hleaves]
    exact hnext.mono hmono
  | @prune _ position index r hpos hle h =>
    obtain ⟨t, r', hprune, hnext⟩ := prune_spec hB hover hpos hle index
    obtain ⟨rfl, -⟩ := Prod.mk.inj (Option.some.inj (h.symm.trans hprune))
    have hpushed : pushed (history ++ [.prune position index]) = pushed history := by
      rw [pushed, List.filterMap_append, ← pushed]
      exact List.append_nil _
    rw [hpushed]
    refine hnext.mono fun m hm => ?_
    rcases hm with hm | rfl
    · exact hmono m hm
    · exact ⟨index, by simp⟩

/-- Every run. -/
theorem over_of_run {b : β} {s : PMMR β} {history : List (Op T W)} (hB : B.Lawful valid stored) (hvalid : valid b)
    (hempty : stored b = []) (hrun : Run (Step A B) (PMMR.new b) history s) :
    Over A valid stored (leaves A (pushed history)) (Pruned history) s := by
  refine hrun.invariant_history (P := fun history s => Over A valid stored (leaves A (pushed history)) (Pruned history) s)
    (fun _ _ _ _ => over_step hB) ⟨hvalid, by simp [PMMR.new, pushed, leaves, nodes], ?_⟩
  have hkept : Kept (HashSum.add A) [] (Pruned ([] : List (Op T W))) [] :=
    { Kept.empty with asked := fun m hm => absurd hm (Nat.not_lt_zero m) }
  exact hempty.symm ▸ hkept

omit [Add S] in
theorem leaves_ne_nil {elmts : List (T × Option W)} (h : elmts ≠ []) : leaves A elmts ≠ [] := by
  rw [← List.length_pos_iff, length_leaves, List.length_pos_iff]
  exact h

/-- The sum of the root, of a run. -/
theorem map_root {M : Type*} [AddMonoid M] {f : S → M} {good : M → Prop} {s : PMMR β} {history : List (Op T W)}
    (hB : B.Lawful valid stored)
    (hover : Over A valid stored (leaves A (pushed history)) (Pruned history) s)
    (hf : AddsUp (· + ·) f good)
    (hgood : GoodBlocks (fun elmt => f (A.sum elmt.1)) good (pushed history)) (hne : pushed history ≠ []) :
    (s.root A B).map (fun x => f x.sum) = some ((pushed history).map fun elmt => f (A.sum elmt.1)).sum := by
  have hblocks : GoodBlocks (fun x : HashSum H S => f x.sum) good (leaves A (pushed history)) := by
    rintro block ⟨front, back, hblock⟩ hblockne
    -- the elements of a block of leaves are a block as well
    have hmap := map_leaves A (pushed history) f
    rw [← hblock, List.map_append, List.map_append] at hmap
    obtain ⟨elmts, rest, helmts, hfront, -⟩ := List.map_eq_append_iff.mp hmap.symm
    obtain ⟨before, elmts, rfl, -, helmts'⟩ := List.map_eq_append_iff.mp hfront
    rw [← helmts']
    refine hgood elmts ⟨before, rest, by rw [helmts]⟩ fun hnil => hblockne ?_
    rw [hnil] at helmts'
    exact List.map_eq_nil_iff.mp helmts'.symm
  rw [root_spec hB hover (leaves_ne_nil hne), ← map_leaves]
  exact map_bagged (fun a b => hf a.sum b.sum) hblocks (leaves_ne_nil hne)

/-- Over any backend that stores what it is given, a range commits after every run to what was pushed, and
every next operation on it returns. -/
theorem commits_of_run {b : β} {s : PMMR β} {history : List (Op T W)} (hB : B.Lawful valid stored)
    (hvalid : valid b) (hempty : stored b = []) (hrun : Run (Step A B) (PMMR.new b) history s) :
    Commits A B history s := by
  have hover := over_of_run hB hvalid hempty hrun
  have hlength := length_leaves A (pushed history)
  refine ⟨fun hne => ?_, fun hf hgood hne => map_root hB hover hf hgood hne, fun k h hle => ?_,
    fun elmt hashWith => ?_, fun position index hpos hle => ?_⟩
  · obtain ⟨x, hx⟩ := exists_bagged (HashSum.add A) (leaves_ne_nil (A := A) hne)
    exact ⟨x, (root_spec hB hover (leaves_ne_nil hne)).trans hx, hx⟩
  · rw [← hlength] at hle
    rw [hover.get hB hle]
    rcases hover.kept.there k h hle with hthere | ⟨hnone, -⟩
    · exact .inl hthere
    · exact .inr ⟨hnone, fun m => hover.kept.asked_of_none hle hnone⟩
  · obtain ⟨s', hpush, -⟩ := push_spec hB hover elmt hashWith
    exact ⟨s', hlength ▸ hpush⟩
  · obtain ⟨s', r, hprune, -⟩ := prune_spec hB hover hpos hle index
    exact ⟨s', r, hprune⟩

end Runs

/-! ## The range of the outputs -/

/-- `SumCommit`: the commitment of an output, which is its own sum. -/
structure SumCommit (N : Native) where
  commit : Commitment
deriving DecidableEq

/-- `SumCommit::add`: a sum that fails is 33 ones. -/
def SumCommit.add {N : Native} (self other : SumCommit N) : SumCommit N :=
  match N.pedersenCommitSum [self.commit.value, other.commit.value] [] with
  | some sum => ⟨⟨sum⟩⟩
  | none => ⟨⟨⟨List.replicate 33 1, rfl⟩⟩⟩

instance (N : Native) : Add (SumCommit N) := ⟨SumCommit.add⟩

section Outputs

variable {N : Native} {E : Type*} [AddCommGroup E] {W H β : Type}
  {A : Hashing (SumCommit N) W H (SumCommit N)} {B : Backend β (HashSum H (SumCommit N))} {valid : β → Prop}
  {stored : β → List (Option (HashSum H (SumCommit N)))}

/-- Commitments that do not cancel are summed as their points. -/
theorem addsUp_point (P : Pedersen N E) :
    AddsUp (· + ·) (fun c : SumCommit N => P.point c.commit) (· ≠ 0) := by
  intro a b hne
  have hsum : ([a.commit.value, b.commit.value].map P.load).sum - (([] : List (Fixed 33)).map P.load).sum =
      P.point a.commit + P.point b.commit := by
    simp [Pedersen.point]
  have hcommit := P.pedersenCommitSum_eq [a.commit.value, b.commit.value] [] (hsum.symm ▸ hne)
  have hadd : a + b = ⟨⟨P.save (P.point a.commit + P.point b.commit)⟩⟩ := by
    show SumCommit.add a b = _
    rw [SumCommit.add, hcommit, hsum]
  show P.point (a + b).commit = _
  rw [hadd]
  exact P.point_save hne

/-- After every run the root of the range of the outputs is a commitment to what all outputs commit to
together, unless neighbouring outputs cancel. -/
theorem point_root (P : Pedersen N E) {b : β} {s : PMMR β} {history : List (Op (SumCommit N) W)}
    (hB : B.Lawful valid stored) (hvalid : valid b) (hempty : stored b = [])
    (hself : ∀ c, A.sum c = c) (hrun : Run (Step A B) (PMMR.new b) history s)
    (hblocks : ∀ block, block <:+: pushed history → block ≠ [] →
      P.pointSum (block.map fun elmt => elmt.1.commit) ≠ 0) (hne : pushed history ≠ []) :
    (s.root A B).map (fun x => P.point x.sum.commit) =
      some (P.pointSum ((pushed history).map fun elmt => elmt.1.commit)) := by
  have hpoints (elmts : List (SumCommit N × Option W)) :
      (elmts.map fun elmt => P.point (A.sum elmt.1).commit).sum =
        P.pointSum (elmts.map fun elmt => elmt.1.commit) := by
    rw [Pedersen.pointSum, List.map_map]
    simp only [hself, Function.comp_def]
  have hgood : GoodBlocks (fun elmt => P.point (A.sum elmt.1).commit) (· ≠ 0) (pushed history) := by
    intro block hblock hblockne
    rw [hpoints]
    exact hblocks block hblock hblockne
  rw [map_root hB (over_of_run hB hvalid hempty hrun) (addsUp_point P) hgood hne, hpoints]

end Outputs

/-! ### Over pairs -/

/-- Commitments over pairs, with numbers as hashes. -/
def pairHashing : Hashing (SumCommit Pairs.native) ℕ ℕ (SumCommit Pairs.native) where
  sum := id
  hash c := Pairs.loadValue c.commit.value
  hashWith c h := Pairs.loadValue c.commit.value + h
  hashNode idx sum h := 100 * idx + 10 * Pairs.loadValue sum.commit.value + h
  hashPair l r := 3 * l + r

/-- The commitment to a value under a key. -/
def pairSum (v r : ℕ) : SumCommit Pairs.native := ⟨⟨Pairs.save v r⟩⟩

/-- Three outputs, of which the first two are pruned. -/
def pairOps : List (Op (SumCommit Pairs.native) ℕ) :=
  [.push (pairSum 5 1) none, .push (pairSum 7 2) (some 1), .push (pairSum 9 3) none, .prune 1 0, .prune 2 0]

/-- What is left: their parent and the third output. -/
def pairRange : PMMR (List (Option (HashSum ℕ (SumCommit Pairs.native)))) where
  lastPos := 4
  backend := [none, none, some { hash := 743, sum := pairSum 12 3 }, some { hash := 499, sum := pairSum 9 3 }]

/-- Leaves of the range, and the parent of the first two. -/
def pairLeaf (hash v r : ℕ) : Option (HashSum ℕ (SumCommit Pairs.native)) := some { hash, sum := pairSum v r }

theorem run_pairs : Run (Step pairHashing (vecBackend _)) (PMMR.new []) pairOps pairRange := by
  have hfirst : Step pairHashing (vecBackend _) (PMMR.new []) (.push (pairSum 5 1) none)
      ⟨1, [pairLeaf 155 5 1]⟩ := .push (p := 1) (by decide +kernel)
  have hsecond : Step pairHashing (vecBackend _) ⟨1, [pairLeaf 155 5 1]⟩ (.push (pairSum 7 2) (some 1))
      ⟨3, [pairLeaf 155 5 1, pairLeaf 278 7 2, pairLeaf 743 12 3]⟩ := .push (p := 2) (by decide +kernel)
  have hthird : Step pairHashing (vecBackend _)
      ⟨3, [pairLeaf 155 5 1, pairLeaf 278 7 2, pairLeaf 743 12 3]⟩ (.push (pairSum 9 3) none)
      ⟨4, [pairLeaf 155 5 1, pairLeaf 278 7 2, pairLeaf 743 12 3, pairLeaf 499 9 3]⟩ :=
    .push (p := 4) (by decide +kernel)
  exact ((((((Run.nil _).snoc hfirst).snoc hsecond).snoc hthird).snoc
    (.prune (by decide) (by decide) rfl)).snoc (.prune (by decide) (by decide) rfl))

/-- No neighbouring outputs cancel. -/
theorem goodBlocks_pairs :
    GoodBlocks (fun elmt => Pairs.pedersen.point (pairHashing.sum elmt.1).commit) (· ≠ 0) (pushed pairOps) := by
  intro block hblock hne
  have hall : ∀ block ∈ (pushed pairOps).sublists, block ≠ [] →
      (block.map fun elmt => Pairs.pedersen.point (pairHashing.sum elmt.1).commit).sum ≠ 0 := by decide +kernel
  exact hall block (List.mem_sublists.mpr hblock.sublist) hne

/-- The root commits to the three outputs together, although two of them are gone. -/
theorem commits_of_run_pairs : Commits pairHashing (vecBackend _) pairOps pairRange ∧
    (pairRange.root pairHashing (vecBackend _)).map (fun x => Pairs.pedersen.point x.sum.commit) =
      some (21, 6) := by
  have hcommits : Commits pairHashing (vecBackend _) pairOps pairRange :=
    commits_of_run (vecBackend_lawful _) trivial rfl run_pairs
  refine ⟨hcommits, (hcommits.sum (addsUp_point Pairs.pedersen) goodBlocks_pairs (by decide)).trans ?_⟩
  decide +kernel

end Pmmr

end GrinDotnet
