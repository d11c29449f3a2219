import Mathlib.Algebra.Module.Basic
import Mathlib.Tactic.Module

/-!
# Ring signatures

The members of a ring are points, each with a response. A challenge at a member gives a point, and the
point gives the challenge of the next member. Whoever knows the secret of one member chooses its point
first and its response last, which closes the ring.

Results:
1. `length_of_reach`, `length_of_walk`: a challenge for every member on the way.
2. `walk_reach`: a walk in two parts.
3. `walk_congr`, `reach_congr`: a walk looks at the members on its way.
4. `walk_close`: a ring that was closed can be walked from its beginning.
-/

namespace RingSignature

variable {K E : Type*} [CommRing K] [AddCommGroup E] [Module K E]

/-- The members: their points and responses, and the generator of the responses. -/
structure Members (K E : Type*) where
  generator : E
  point : ℕ → E
  response : ℕ → K

/-- The point a member makes of a challenge. -/
def Members.answer (R : Members K E) (j : ℕ) (e : K) : E := e • R.point j + R.response j • R.generator

/-- The response that goes with a secret and a nonce makes the point of the nonce. -/
theorem answer_of_secret {R : Members K E} {i : ℕ} {x k e : K} (hpoint : R.point i = x • R.generator)
    (hresponse : R.response i = k - e * x) : R.answer i e = k • R.generator := by
  rw [Members.answer, hpoint, hresponse]
  module

variable [DecidableEq E] (challenge : ℕ → E → Option K) (R : Members K E)

/-- From a challenge at a member on, through as many further members: the challenges on the way and
the last point. No point on the way may be zero. -/
def walk : ℕ → ℕ → K → Option (List K × E)
  | 0, j, e => if R.answer j e = 0 then none else some ([e], R.answer j e)
  | left + 1, j, e =>
    if R.answer j e = 0 then none
    else
      (challenge (j + 1) (R.answer j e)).bind fun e' =>
        (walk left (j + 1) e').map fun (es, r) => (e :: es, r)

/-- From a challenge at a member on, past as many members: the challenges on the way, and the one at
the member that is reached. -/
def reach : ℕ → ℕ → K → Option (List K × K)
  | 0, _, e => some ([], e)
  | steps + 1, j, e =>
    if R.answer j e = 0 then none
    else
      (challenge (j + 1) (R.answer j e)).bind fun e' =>
        (reach steps (j + 1) e').map fun (es, last) => (e :: es, last)

/-- From the point of a member on, through as many further members. -/
def onward : ℕ → ℕ → E → Option (List K × E)
  | 0, _, r => some ([], r)
  | left + 1, j, r => (challenge (j + 1) r).bind (walk challenge R left (j + 1))

variable {challenge R}

theorem length_of_reach {steps j : ℕ} {e e' : K} {es : List K}
    (h : reach challenge R steps j e = some (es, e')) : es.length = steps := by
  induction steps generalizing j e es with
  | zero =>
    cases h
    rfl
  | succ steps ih =>
    rw [reach] at h
    split at h
    · cases h
    · obtain ⟨next, -, h⟩ := Option.bind_eq_some_iff.mp h
      obtain ⟨⟨rest, last⟩, hrest, hlast⟩ := Option.map_eq_some_iff.mp h
      cases hlast
      rw [List.length_cons, ih hrest]

theorem length_of_walk {left j : ℕ} {e : K} {es : List K} {r : E}
    (h : walk challenge R left j e = some (es, r)) : es.length = left + 1 := by
  induction left generalizing j e es with
  | zero =>
    rw [walk] at h
    split at h
    · cases h
    · cases h
      rfl
  | succ left ih =>
    rw [walk] at h
    split at h
    · cases h
    · obtain ⟨next, -, h⟩ := Option.bind_eq_some_iff.mp h
      obtain ⟨⟨rest, last⟩, hrest, hlast⟩ := Option.map_eq_some_iff.mp h
      cases hlast
      rw [List.length_cons, ih hrest]

/-- A walk goes on from where it has got to. -/
theorem walk_reach {steps left j : ℕ} {e e' : K} {es es' : List K} {r : E}
    (hreach : reach challenge R steps j e = some (es, e'))
    (hwalk : walk challenge R left (j + steps) e' = some (es', r)) :
    walk challenge R (steps + left) j e = some (es ++ es', r) := by
  induction steps generalizing j e es with
  | zero =>
    cases hreach
    simpa using hwalk
  | succ steps ih =>
    rw [reach] at hreach
    split at hreach
    · cases hreach
    · next hne =>
      obtain ⟨next, hnext, hreach⟩ := Option.bind_eq_some_iff.mp hreach
      obtain ⟨⟨es₁, last⟩, hrest, hlast⟩ := Option.map_eq_some_iff.mp hreach
      cases hlast
      have hwalk' := ih hrest (by rwa [Nat.add_right_comm])
      rw [Nat.succ_add, walk, if_neg hne]
      simp only [hnext, hwalk', Option.bind_some, Option.map_some]
      rfl

/-- A walk is the point of its first member and what comes after it. -/
theorem walk_eq_onward {left j : ℕ} {e : K} {r : E} (hr : R.answer j e = r) (hne : r ≠ 0) :
    walk challenge R left j e = (onward challenge R left j r).map fun p => (e :: p.1, p.2) := by
  subst hr
  cases left with
  | zero => rw [walk, if_neg hne, onward, Option.map_some]
  | succ left =>
    rw [walk, if_neg hne, onward]
    cases challenge (j + 1) (R.answer j e) with
    | none => rfl
    | some e' => rfl

variable {R' : Members K E}

/-- A walk looks at the members on its way. -/
theorem walk_congr {left j : ℕ} (e : K) (h : ∀ i, j ≤ i → i ≤ j + left → ∀ e, R.answer i e = R'.answer i e) :
    walk challenge R left j e = walk challenge R' left j e := by
  induction left generalizing j e with
  | zero => rw [walk, walk, h j le_rfl le_rfl]
  | succ left ih =>
    have hrest : ∀ e, walk challenge R left (j + 1) e = walk challenge R' left (j + 1) e := fun e =>
      ih e fun i hi hle => h i (by omega) (by omega)
    rw [walk, walk, h j le_rfl (by omega)]
    simp only [hrest]

theorem reach_congr {steps j : ℕ} (e : K) (h : ∀ i, j ≤ i → i < j + steps → ∀ e, R.answer i e = R'.answer i e) :
    reach challenge R steps j e = reach challenge R' steps j e := by
  induction steps generalizing j e with
  | zero => rfl
  | succ steps ih =>
    have hrest : ∀ e, reach challenge R steps (j + 1) e = reach challenge R' steps (j + 1) e := fun e =>
      ih e fun i hi hlt => h i (by omega) (by omega)
    rw [reach, reach, h j le_rfl (by omega)]
    simp only [hrest]

theorem onward_congr {left j : ℕ} (r : E) (h : ∀ i, j < i → i ≤ j + left → ∀ e, R.answer i e = R'.answer i e) :
    onward challenge R left j r = onward challenge R' left j r := by
  cases left with
  | zero => rfl
  | succ left =>
    have hrest : ∀ e, walk challenge R left (j + 1) e = walk challenge R' left (j + 1) e := fun e =>
      walk_congr e fun i hi hle => h i (by omega) (by omega)
    rw [onward, onward, funext hrest]

/-- A ring that was begun at the nonce of a member and closed with its response. -/
theorem walk_close {i left : ℕ} {x k e₀ e : K} {es es' : List K} {r : E}
    (hpoint : R.point i = x • R.generator) (hresponse : R.response i = k - e * x)
    (hnonce : k • R.generator ≠ 0) (honward : onward challenge R left i (k • R.generator) = some (es', r))
    (hreach : reach challenge R i 0 e₀ = some (es, e)) :
    walk challenge R (i + left) 0 e₀ = some (es ++ e :: es', r) := by
  refine walk_reach hreach ?_
  rw [Nat.zero_add, walk_eq_onward (answer_of_secret hpoint hresponse) hnonce, honward, Option.map_some]

end RingSignature
