import Mathlib.Data.List.Nodup
import GrinDotnet.Lib.Pool

/-!
# Keys and logs of interleaved processes

Processes that take new keys in a shared store, and processes that each leave an entry in a shared
log.

Results:
1. `Pool.owned_of_run`: what a process keeps under its key stays there, and no two processes have the
   same key.
2. `Pool.logged_of_run`: the log has one entry for each process that has made one.
-/

namespace Pool

variable {ι σ μ κ α : Type*} [DecidableEq ι] {own : ι → Pool ι σ μ → μ → σ → Prop}
  {outer : σ → σ → Prop}

/-- What every process keeps under its key is there, and no two processes have the same key. -/
structure Owned (key : μ → Option κ) (Has : ι → σ → μ → Prop) (p : Pool ι σ μ) : Prop where
  has : ∀ i, Has i p.shared (p.locals i)
  distinct : ∀ i j, i ≠ j → ∀ k, key (p.locals i) = some k → key (p.locals j) ≠ some k

/-- How a step of a process treats the keys: its own key stays or is new, what it keeps is there
afterwards, and what others keep under other keys stays. -/
structure Respects (key : μ → Option κ) (Has : ι → σ → μ → Prop) (i : ι) (p : Pool ι σ μ) (l : μ)
    (s : σ) : Prop where
  self : Has i p.shared (p.locals i) → Has i s l
  others : ∀ j, j ≠ i → (∀ k, key (p.locals i) = some k → key (p.locals j) ≠ some k) →
    Has j p.shared (p.locals j) → Has j s (p.locals j)
  new : ∀ k, key l = some k → key (p.locals i) = some k ∨
    ∀ j, Has j p.shared (p.locals j) → key (p.locals j) ≠ some k

theorem owned_of_respects {key : μ → Option κ} {Has : ι → σ → μ → Prop} {p : Pool ι σ μ} {i : ι}
    {l : μ} {s : σ} (hp : Owned key Has p) (h : Respects key Has i p l s) :
    Owned key Has (p.put i l s) where
  has := forall_locals_put (P := fun j l => Has j s l) (h.self (hp.has i)) fun j hj =>
    h.others j hj (hp.distinct i j (Ne.symm hj)) (hp.has j)
  distinct := by
    have hsymm : ∀ a b : μ, (∀ k, key a = some k → key b ≠ some k) →
        ∀ k, key b = some k → key a ≠ some k :=
      fun _ _ hab k hb ha => hab k ha hb
    refine pairwise_locals_put hsymm hp.distinct fun j hj k hk => ?_
    rcases h.new k hk with hold | hnew
    · exact hp.distinct i j (Ne.symm hj) k hold
    · exact hnew j (hp.has j)

/-- Steps that respect the keys keep what the processes have under them. -/
theorem owned_of_run {key : μ → Option κ} {Has : ι → σ → μ → Prop}
    (hown : ∀ i p l s, Owned key Has p → own i p l s → Respects key Has i p l s)
    (houter : ∀ s s' i l, outer s s' → Has i s l → Has i s' l) {p q : Pool ι σ μ}
    {history : List (Option ι)} (h : Run (Step own outer) p history q) (hp : Owned key Has p) :
    Owned key Has q := by
  refine h.invariant (fun r who r' hr hstep => ?_) hp
  cases hstep with
  | own hmove => exact owned_of_respects hr (hown _ _ _ _ hr hmove)
  | outer hmove => exact ⟨fun i => houter _ _ i _ hmove (hr.has i), hr.distinct⟩

/-- The log has the entries of some processes, each once, and of all that have one. -/
def Logged (log : σ → List α) (entry : μ → Option α) (p : Pool ι σ μ) : Prop :=
  ∃ order : List ι, order.Nodup ∧ (∀ i, i ∈ order ↔ (entry (p.locals i)).isSome) ∧
    log p.shared = order.filterMap fun i => entry (p.locals i)

omit [DecidableEq ι] in
/-- The entries of the log, each next to its process. -/
theorem Logged.exists_order {log : σ → List α} {entry : μ → Option α} {p : Pool ι σ μ}
    (h : Logged log entry p) :
    ∃ order : List ι, order.Nodup ∧ (∀ i, i ∈ order ↔ (entry (p.locals i)).isSome) ∧
      List.Forall₂ (fun i a => entry (p.locals i) = some a) order (log p.shared) := by
  obtain ⟨order, hnodup, hmem, hlog⟩ := h
  refine ⟨order, hnodup, hmem, ?_⟩
  rw [hlog]
  have hsome : ∀ i ∈ order, (entry (p.locals i)).isSome := fun i hi => (hmem i).mp hi
  clear hlog hmem hnodup
  induction order with
  | nil => exact .nil
  | cons i order ih =>
    obtain ⟨a, ha⟩ := Option.isSome_iff_exists.mp (hsome i (by simp))
    rw [List.filterMap_cons, ha]
    exact .cons ha (ih fun j hj => hsome j (by simp [hj]))

/-- A process that makes its entry writes it at the end of the log. -/
theorem logged_of_step {log : σ → List α} {entry : μ → Option α} {p : Pool ι σ μ} {i : ι} {l : μ}
    {s : σ} (hp : Logged log entry p)
    (hself : (entry l = entry (p.locals i) ∧ log s = log p.shared) ∨
      ∃ a, entry (p.locals i) = none ∧ entry l = some a ∧ log s = log p.shared ++ [a]) :
    Logged log entry (p.put i l s) := by
  obtain ⟨order, hnodup, hmem, hlog⟩ := hp
  have hothers : ∀ j, j ≠ i → entry ((p.put i l s).locals j) = entry (p.locals j) :=
    fun j hj => by rw [locals_put_of_ne p hj]
  rcases hself with ⟨hentry, hsame⟩ | ⟨a, hnone, hsome, hadded⟩
  · have hall : ∀ j, entry ((p.put i l s).locals j) = entry (p.locals j) := by
      intro j
      by_cases hj : j = i
      · subst hj
        rw [locals_put_self, hentry]
      · exact hothers j hj
    refine ⟨order, hnodup, fun j => by rw [hall, hmem], ?_⟩
    rw [shared_put, hsame, hlog]
    exact List.filterMap_congr fun j _ => (hall j).symm
  · have hi : i ∉ order := by simp [hmem, hnone]
    refine ⟨order ++ [i], ?_, fun j => ?_, ?_⟩
    · exact List.Nodup.append hnodup (List.nodup_singleton i) (by simpa using hi)
    · by_cases hj : j = i
      · subst hj
        simp [hsome]
      · rw [hothers j hj, ← hmem]
        simp [hj]
    · rw [shared_put, hadded, hlog, List.filterMap_append]
      congr 1
      · refine List.filterMap_congr fun j hj => (hothers j fun h => hi (h ▸ hj)).symm
      · simp [hsome]

/-- Steps that write to the log exactly when they make the entry of their process. -/
theorem logged_of_run {log : σ → List α} {entry : μ → Option α}
    (hown : ∀ i p l s, own i p l s →
      (entry l = entry (p.locals i) ∧ log s = log p.shared) ∨
        ∃ a, entry (p.locals i) = none ∧ entry l = some a ∧ log s = log p.shared ++ [a])
    (houter : ∀ s s', outer s s' → log s' = log s) {p q : Pool ι σ μ}
    {history : List (Option ι)} (h : Run (Step own outer) p history q) (hp : Logged log entry p) :
    Logged log entry q := by
  refine h.invariant (fun r who r' hr hstep => ?_) hp
  cases hstep with
  | own hmove => exact logged_of_step hr (hown _ _ _ _ hmove)
  | outer hmove =>
    obtain ⟨order, hnodup, hmem, hlog⟩ := hr
    exact ⟨order, hnodup, hmem, (houter _ _ hmove).trans hlog⟩

end Pool
