import Mathlib.Data.List.Forall2

/-!
# Computations that may fail

Inversion lemmas for `Except`: what it means that a sequence, a traversal or a loop succeeds. They
take a computation apart step by step without unfolding the monad.
-/

namespace Outcome

universe u v

variable {ε : Type v} {α β : Type u}

/-- A sequence succeeds exactly when both parts do. -/
theorem bind_eq_ok {x : Except ε α} {f : α → Except ε β} {b : β} :
    (x >>= f) = .ok b ↔ ∃ a, x = .ok a ∧ f a = .ok b := by
  cases x with
  | error e => simp [bind, Except.bind]
  | ok a => simp [bind, Except.bind]

@[simp] theorem ok_bind (a : α) (f : α → Except ε β) : (Except.ok a >>= f) = f a := rfl

@[simp] theorem error_bind (e : ε) (f : α → Except ε β) : (Except.error e >>= f) = .error e := rfl

@[simp] theorem pure_eq_ok (a : α) : (pure a : Except ε α) = .ok a := rfl

theorem exists_of_isOk {x : Except ε α} (h : x.isOk = true) : ∃ a, x = .ok a := by
  cases x with
  | error e => cases h
  | ok a => exact ⟨a, rfl⟩

theorem exists_error_of_isOk {x : Except ε α} (h : x.isOk = false) : ∃ e, x = .error e := by
  cases x with
  | error e => exact ⟨e, rfl⟩
  | ok a => cases h

/-- What holds of every answer of a computation that answers exactly under a condition. -/
theorem forall_ok_iff {x : Except ε α} {P : α → Prop} {R Q : Prop}
    (hok : R → ∃ a, x = .ok a ∧ (P a ↔ Q)) (herror : ¬ R → ∃ e, x = .error e) :
    (∀ a, x = .ok a → P a) ↔ (R → Q) := by
  constructor
  · intro h hR
    obtain ⟨a, ha, hPQ⟩ := hok hR
    exact hPQ.mp (h a ha)
  · intro h a ha
    by_cases hR : R
    · obtain ⟨b, hb, hPQ⟩ := hok hR
      obtain rfl : b = a := Except.ok.inj (hb.symm.trans ha)
      exact hPQ.mpr (h hR)
    · obtain ⟨e, he⟩ := herror hR
      rw [he] at ha
      cases ha

/-- A loop succeeds exactly when every step does. -/
theorem forM_eq_ok {f : α → Except ε PUnit} {l : List α} :
    forM l f = .ok ⟨⟩ ↔ ∀ a ∈ l, f a = .ok ⟨⟩ := by
  induction l with
  | nil => simp
  | cons a l ih =>
    rw [List.forM_cons, bind_eq_ok]
    constructor
    · rintro ⟨⟨⟩, ha, hl⟩ x hx
      rcases List.mem_cons.mp hx with rfl | hx
      · exact ha
      · exact ih.mp hl x hx
    · intro h
      exact ⟨⟨⟩, h a (by simp), ih.mpr fun x hx => h x (by simp [hx])⟩

/-- A traversal succeeds with the answers of its elements, in order. -/
theorem mapM_eq_ok {f : α → Except ε β} {l : List α} {bs : List β} :
    l.mapM f = .ok bs ↔ List.Forall₂ (fun a b => f a = .ok b) l bs := by
  induction l generalizing bs with
  | nil => cases bs <;> simp
  | cons a l ih =>
    rw [List.mapM_cons, bind_eq_ok]
    constructor
    · rintro ⟨b, hb, hl⟩
      obtain ⟨bs', hbs, h⟩ := bind_eq_ok.mp hl
      cases h
      exact .cons hb (ih.mp hbs)
    · rintro (_ | ⟨hb, hbs⟩)
      exact ⟨_, hb, bind_eq_ok.mpr ⟨_, ih.mpr hbs, rfl⟩⟩

/-- A loop with a state takes its first step, then the others. -/
theorem foldlM_cons_eq_ok {f : β → α → Except ε β} {a : α} {l : List α} {b b' : β} :
    (a :: l).foldlM f b = .ok b' ↔ ∃ b₁, f b a = .ok b₁ ∧ l.foldlM f b₁ = .ok b' := by
  rw [List.foldlM_cons, bind_eq_ok]

/-- A loop with a state can be cut anywhere. -/
theorem foldlM_append_eq_ok {f : β → α → Except ε β} {l m : List α} {b b' : β} :
    (l ++ m).foldlM f b = .ok b' ↔ ∃ b₁, l.foldlM f b = .ok b₁ ∧ m.foldlM f b₁ = .ok b' := by
  rw [List.foldlM_append, bind_eq_ok]

/-- It takes its last step behind the others. -/
theorem foldlM_snoc_eq_ok {f : β → α → Except ε β} {a : α} {l : List α} {b b' : β} :
    (l ++ [a]).foldlM f b = .ok b' ↔ ∃ b₁, l.foldlM f b = .ok b₁ ∧ f b₁ a = .ok b' := by
  rw [foldlM_append_eq_ok]
  simp only [List.foldlM_cons, List.foldlM_nil, bind_pure]

/-- What every step of a loop preserves holds of its result. -/
theorem foldlM_preserves {P : β → Prop} {f : β → α → Except ε β} {l : List α} {b b' : β}
    (hf : ∀ b a b', a ∈ l → P b → f b a = .ok b' → P b') (h : l.foldlM f b = .ok b') (hb : P b) :
    P b' := by
  induction l generalizing b with
  | nil =>
    obtain rfl := Except.ok.inj h
    exact hb
  | cons a l ih =>
    obtain ⟨b₁, hb₁, hl⟩ := foldlM_cons_eq_ok.mp h
    exact ih (fun b a b' ha => hf b a b' (by simp [ha])) hl (hf b a b₁ (by simp) hb hb₁)

/-- A loop answers when every step does. -/
theorem exists_foldlM {f : β → α → Except ε β} {l : List α}
    (hf : ∀ a ∈ l, ∀ b, ∃ b', f b a = .ok b') (b : β) : ∃ b', l.foldlM f b = .ok b' := by
  induction l generalizing b with
  | nil => exact ⟨b, rfl⟩
  | cons a l ih =>
    obtain ⟨b₁, hb₁⟩ := hf a List.mem_cons_self b
    obtain ⟨b', hb'⟩ := ih (fun a ha => hf a (List.mem_cons_of_mem _ ha)) b₁
    exact ⟨b', foldlM_cons_eq_ok.mpr ⟨b₁, hb₁, hb'⟩⟩

/-! ## What a computation can raise -/

/-- Whatever the computation raises has the property. -/
def Raises (P : ε → Prop) (x : Except ε α) : Prop := ∀ e, x = .error e → P e

section Raises

variable {P : ε → Prop} {x : Except ε α}

@[simp] theorem raises_ok (a : α) : Raises P (Except.ok a) := fun _ h => nomatch h

@[simp] theorem raises_pure (a : α) : Raises P (pure a : Except ε α) := fun _ h => nomatch h

@[simp] theorem raises_error {e : ε} : Raises P (Except.error e : Except ε α) ↔ P e := by
  constructor
  · intro h
    exact h e rfl
  · rintro he e' h
    cases h
    exact he

theorem Raises.bind {f : α → Except ε β} (hx : Raises P x) (hf : ∀ a, Raises P (f a)) :
    Raises P (x >>= f) := by
  intro e h
  cases x with
  | error e' =>
    cases h
    exact hx e rfl
  | ok a => exact hf a e h

theorem raises_forM {f : α → Except ε PUnit} {l : List α} (hf : ∀ a ∈ l, Raises P (f a)) :
    Raises P (forM l f) := by
  induction l with
  | nil => exact raises_pure _
  | cons a l ih =>
    rw [List.forM_cons]
    exact (hf a (by simp)).bind fun _ => ih fun b hb => hf b (by simp [hb])

theorem raises_mapM {f : α → Except ε β} {l : List α} (hf : ∀ a ∈ l, Raises P (f a)) :
    Raises P (l.mapM f) := by
  induction l with
  | nil => exact raises_pure _
  | cons a l ih =>
    rw [List.mapM_cons]
    refine (hf a (by simp)).bind fun _ => ?_
    exact (ih fun b hb => hf b (by simp [hb])).bind fun _ => raises_pure _

end Raises

end Outcome
