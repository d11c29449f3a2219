import Mathlib.Data.List.Count
import Mathlib.Logic.Function.Basic
import GrinDotnet.Lib.Run

/-!
# Interleaved processes

A pool of processes over a shared state. A step is one of some process, which may look at the whole
pool, or one of the surroundings. A label names the process that moved.

Results:
1. `Pool.exclusive_of_step`: processes that enter a section only while no other one is in it are
   never in it together.
2. `Pool.rely_guarantee`: what every process guarantees of the shared state, and what the others
   rely on, holds at the end of a run.
3. `Pool.rank_of_run`: a process that comes closer to its end with every step gets there.
4. `Pool.run_schedule`: processes that move deterministically run by any schedule.
-/

/-- A shared state and the local state of every process. -/
structure Pool (ι σ μ : Type*) where
  shared : σ
  locals : ι → μ

namespace Pool

variable {ι σ μ : Type*} [DecidableEq ι]

/-- The pool after one process moved. -/
def put (p : Pool ι σ μ) (i : ι) (l : μ) (s : σ) : Pool ι σ μ := ⟨s, Function.update p.locals i l⟩

@[simp] theorem shared_put (p : Pool ι σ μ) (i : ι) (l : μ) (s : σ) : (p.put i l s).shared = s := rfl

@[simp] theorem locals_put_self (p : Pool ι σ μ) (i : ι) (l : μ) (s : σ) :
    (p.put i l s).locals i = l := Function.update_self ..

theorem locals_put_of_ne (p : Pool ι σ μ) {i j : ι} (h : j ≠ i) (l : μ) (s : σ) :
    (p.put i l s).locals j = p.locals j := Function.update_of_ne h ..

/-- What a process that moved has of its new local state, and the others of theirs, all have. -/
theorem forall_locals_put {P : ι → μ → Prop} {p : Pool ι σ μ} {i : ι} {l : μ} {s : σ} (hself : P i l)
    (hothers : ∀ j, j ≠ i → P j (p.locals j)) (j : ι) : P j ((p.put i l s).locals j) := by
  by_cases hj : j = i
  · subst hj
    rwa [locals_put_self]
  · rw [locals_put_of_ne p hj]
    exact hothers j hj

/-- A symmetric relation between any two processes is kept when the one that moved is related to the
others. -/
theorem pairwise_locals_put {R : μ → μ → Prop} (hsymm : ∀ a b, R a b → R b a) {p : Pool ι σ μ}
    {i : ι} {l : μ} {s : σ} (hold : ∀ j k, j ≠ k → R (p.locals j) (p.locals k))
    (hnew : ∀ j, j ≠ i → R l (p.locals j)) (j k : ι) (hjk : j ≠ k) :
    R ((p.put i l s).locals j) ((p.put i l s).locals k) := by
  by_cases hj : j = i
  · subst hj
    rw [locals_put_self, locals_put_of_ne p (Ne.symm hjk)]
    exact hnew k (Ne.symm hjk)
  · rw [locals_put_of_ne p hj]
    by_cases hk : k = i
    · subst hk
      rw [locals_put_self]
      exact hsymm _ _ (hnew j hj)
    · rw [locals_put_of_ne p hk]
      exact hold j k hjk

/-- `own i p l s`: in the pool `p`, process `i` may move to the local state `l` and the shared state
`s`. `outer s s'`: the surroundings may change the shared state. -/
inductive Step (own : ι → Pool ι σ μ → μ → σ → Prop) (outer : σ → σ → Prop) :
    Pool ι σ μ → Option ι → Pool ι σ μ → Prop
  | own {i : ι} {p : Pool ι σ μ} {l : μ} {s : σ} :
      own i p l s → Step own outer p (some i) (p.put i l s)
  | outer {p : Pool ι σ μ} {s : σ} :
      outer p.shared s → Step own outer p none { p with shared := s }

/-- No two processes are in the section. -/
def Exclusive (busy : μ → Prop) (p : Pool ι σ μ) : Prop :=
  ∀ i j, i ≠ j → busy (p.locals i) → ¬ busy (p.locals j)

variable {own : ι → Pool ι σ μ → μ → σ → Prop} {outer : σ → σ → Prop} {busy : μ → Prop}

/-- Entering a section only while no other process is in it keeps it exclusive. -/
theorem exclusive_of_step
    (henter : ∀ i p l s, own i p l s → busy l → ¬ busy (p.locals i) →
      ∀ j, j ≠ i → ¬ busy (p.locals j))
    {p q : Pool ι σ μ} {who : Option ι} (hp : Exclusive busy p) (h : Step own outer p who q) :
    Exclusive busy q := by
  cases h with
  | outer => exact hp
  | @own i _ l s hown =>
    -- whoever moved, the others are out of the section if it is in it now
    have hothers : busy l → ∀ j, j ≠ i → ¬ busy (p.locals j) := by
      intro hl j hj
      by_cases hi : busy (p.locals i)
      · exact hp i j (Ne.symm hj) hi
      · exact henter i p l s hown hl hi j hj
    have hsymm : ∀ a b, (busy a → ¬ busy b) → busy b → ¬ busy a := fun _ _ h hb ha => h ha hb
    exact pairwise_locals_put hsymm hp fun j hj hl => hothers hl j hj

/-- Every step keeps `I` of the shared state and `L` of the process that moves, and changes the
shared state only by `G`; what changes by `G` does not spoil `L` of a process that waits. -/
theorem rely_guarantee {I : σ → Prop} {L : ι → σ → μ → Prop} {G : σ → σ → Prop}
    (hown : ∀ i p l s, I p.shared → L i p.shared (p.locals i) → own i p l s →
      I s ∧ L i s l ∧ G p.shared s)
    (houter : ∀ s s', I s → outer s s' → I s' ∧ G s s')
    (hrely : ∀ i s s' l, G s s' → L i s l → L i s' l)
    {p q : Pool ι σ μ} {history : List (Option ι)} (h : Run (Step own outer) p history q)
    (hshared : I p.shared) (hlocals : ∀ i, L i p.shared (p.locals i)) :
    I q.shared ∧ ∀ i, L i q.shared (q.locals i) := by
  refine h.invariant (P := fun r => I r.shared ∧ ∀ i, L i r.shared (r.locals i)) ?_
    ⟨hshared, hlocals⟩
  rintro r who r' ⟨hI, hL⟩ hstep
  cases hstep with
  | @own i _ l s hmove =>
    obtain ⟨hI', hself, hG⟩ := hown i r l s hI (hL i) hmove
    exact ⟨hI', forall_locals_put hself fun j _ => hrely j _ _ _ hG (hL j)⟩
  | @outer _ s hmove =>
    obtain ⟨hI', hG⟩ := houter _ s hI hmove
    exact ⟨hI', fun j => hrely j _ _ _ hG (hL j)⟩

/-- A process whose rank falls with every step of its own has reached rank zero, or has made no more
steps than its rank has fallen. -/
theorem rank_of_run (rank : μ → ℕ)
    (hown : ∀ i p l s, own i p l s → rank l = 0 ∨ rank l < rank (p.locals i))
    {p q : Pool ι σ μ} {history : List (Option ι)} (h : Run (Step own outer) p history q) (i : ι) :
    rank (q.locals i) = 0 ∨ rank (q.locals i) + history.count (some i) ≤ rank (p.locals i) := by
  refine h.invariant_history (P := fun history r =>
    rank (r.locals i) = 0 ∨ rank (r.locals i) + history.count (some i) ≤ rank (p.locals i)) ?_
    (.inr (Nat.le_refl _))
  intro history r who r' hr hstep
  cases hstep with
  | outer => simpa using hr
  | @own j _ l s hmove =>
    by_cases hj : j = i
    · subst hj
      rw [locals_put_self]
      have hfall := hown j r l s hmove
      rw [List.count_append, List.count_singleton_self]
      omega
    · have hne : some j ≠ some i := fun he => hj (Option.some.inj he)
      rw [locals_put_of_ne r (Ne.symm hj), List.count_append,
        List.count_singleton, if_neg (by simpa using hne)]
      exact hr

/-- A pool whose processes move by a function, in the order of a schedule. -/
def schedule (move : ι → μ → σ → μ × σ) (p : Pool ι σ μ) : List ι → Pool ι σ μ
  | [] => p
  | i :: rest =>
    let next := move i (p.locals i) p.shared
    schedule move (p.put i next.1 next.2) rest

/-- Every move of a schedule is allowed when its turn comes. -/
def Allowed (move : ι → μ → σ → μ × σ) (guard : ι → Pool ι σ μ → Prop) (p : Pool ι σ μ) :
    List ι → Prop
  | [] => True
  | i :: rest =>
    guard i p ∧
      Allowed move guard (p.put i (move i (p.locals i) p.shared).1
        (move i (p.locals i) p.shared).2) rest

instance decidableAllowed (move : ι → μ → σ → μ × σ) (guard : ι → Pool ι σ μ → Prop)
    [∀ i p, Decidable (guard i p)] (is : List ι) (p : Pool ι σ μ) :
    Decidable (Allowed move guard p is) :=
  match is with
  | [] => isTrue trivial
  | _ :: rest => @instDecidableAnd _ _ inferInstance (decidableAllowed move guard rest _)

/-- A process moves by a function, when its guard allows it. -/
def Moves (move : ι → μ → σ → μ × σ) (guard : ι → Pool ι σ μ → Prop) (i : ι) (p : Pool ι σ μ)
    (l : μ) (s : σ) : Prop :=
  guard i p ∧ move i (p.locals i) p.shared = (l, s)

/-- An allowed schedule is a run. -/
theorem run_schedule {move : ι → μ → σ → μ × σ} {guard : ι → Pool ι σ μ → Prop} {is : List ι}
    {p : Pool ι σ μ} (h : Allowed move guard p is) :
    Run (Step (Moves move guard) outer) p (is.map some) (schedule move p is) := by
  induction is generalizing p with
  | nil => exact .nil p
  | cons i rest ih =>
    have hfirst : Step (Moves move guard) outer p (some i)
        (p.put i (move i (p.locals i) p.shared).1 (move i (p.locals i) p.shared).2) :=
      .own ⟨h.1, rfl⟩
    exact (Run.single hfirst).trans (ih h.2)

end Pool
