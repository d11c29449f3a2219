import Mathlib.Data.List.Induction

/-!
# Runs

Labelled steps one after the other. The labels a run leaves behind are its history, the last one at
the end.

Results:
1. `Run.invariant`: what every step preserves holds at the end of a run.
2. `Run.invariant_history`: the same for a property of the state and the history.
3. `Run.exists_middle`: a run can be taken apart at any point of its history.
-/

/-- `Run step s history t`: steps lead from `s` to `t` and leave their labels behind. -/
inductive Run {σ α : Type*} (step : σ → α → σ → Prop) : σ → List α → σ → Prop
  | nil (s : σ) : Run step s [] s
  | snoc {s t u : σ} {history : List α} {a : α} :
      Run step s history t → step t a u → Run step s (history ++ [a]) u

namespace Run

variable {σ α : Type*} {step : σ → α → σ → Prop} {s t u : σ} {history : List α}

theorem single {a : α} (h : step s a t) : Run step s [a] t := (Run.nil s).snoc h

theorem trans {later : List α} (h : Run step s history t) (h' : Run step t later u) :
    Run step s (history ++ later) u := by
  induction h' with
  | nil => simpa using h
  | snoc _ hstep ih =>
    rw [← List.append_assoc]
    exact ih.snoc hstep

/-- A run without a history stays where it is. -/
theorem eq_of_nil (h : Run step s [] t) : s = t := by
  generalize hnil : ([] : List α) = history at h
  cases h with
  | nil => rfl
  | snoc => simp at hnil

/-- The last step of a run. -/
theorem exists_last {a : α} (h : Run step s (history ++ [a]) u) :
    ∃ t, Run step s history t ∧ step t a u := by
  generalize hlast : history ++ [a] = whole at h
  cases h with
  | nil => simp at hlast
  | snoc hrun hstep =>
    obtain ⟨rfl, rfl⟩ : history = _ ∧ a = _ := by simpa using List.append_inj' hlast rfl
    exact ⟨_, hrun, hstep⟩

/-- A run passes through every point of its history. -/
theorem exists_middle {later : List α} (h : Run step s (history ++ later) u) :
    ∃ t, Run step s history t ∧ Run step t later u := by
  induction later using List.reverseRecOn generalizing u with
  | nil => exact ⟨u, by simpa using h, .nil u⟩
  | append_singleton later a ih =>
    rw [← List.append_assoc] at h
    obtain ⟨m, hrun, hstep⟩ := h.exists_last
    obtain ⟨t, hbefore, hafter⟩ := ih hrun
    exact ⟨t, hbefore, hafter.snoc hstep⟩

/-- Every label of the history is that of a step on the way. -/
theorem exists_step {a : α} {later : List α} (h : Run step s (history ++ a :: later) u) :
    ∃ t m, Run step s history t ∧ step t a m ∧ Run step m later u := by
  rw [List.append_cons] at h
  obtain ⟨m, hbefore, hafter⟩ := h.exists_middle
  obtain ⟨t, hrun, hstep⟩ := hbefore.exists_last
  exact ⟨t, m, hrun, hstep, hafter⟩

/-- A property of the state and the history that every step preserves holds at the end of a run. -/
theorem invariant_history {P : List α → σ → Prop}
    (hstep : ∀ history t a u, P history t → step t a u → P (history ++ [a]) u)
    (h : Run step s history t) (hs : P [] s) : P history t := by
  induction h with
  | nil => exact hs
  | snoc _ hlast ih => exact hstep _ _ _ _ ih hlast

/-- A property of the state that every step preserves holds at the end of a run. -/
theorem invariant {P : σ → Prop} (hstep : ∀ t a u, P t → step t a u → P u)
    (h : Run step s history t) (hs : P s) : P t :=
  invariant_history (fun _ t a u => hstep t a u) h hs

end Run
