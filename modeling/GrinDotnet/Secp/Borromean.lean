import GrinDotnet.Lib.RingSignature
import GrinDotnet.Secp.Curve

/-!
# Borromean ring signatures

`secp256k1_borromean_sign` and `secp256k1_borromean_verify`: several rings that share the challenge they
begin with. Arrays are functions of the index, and `count` is where a ring begins in them.

Results:
1. `verifyMembers_eq`: the inner loop of the verifier walks the ring.
2. `signBackward_eq`, `signForward_eq`: the two inner loops of the signer are its two parts.
3. `borromean_complete`: what was signed is verified.
-/

namespace GrinDotnet

open BigEndian RingSignature

namespace Curve

variable {n : ℕ} {E : Type*} [AddCommGroup E] [Module (ZMod n) E] [DecidableEq E] (C : Curve n E)

/-- `secp256k1_borromean_hash`. -/
def borromeanHash (m e : Bytes) (ridx eidx : ℕ) : Bytes :=
  (C.sha256 (e ++ m ++ ofNat 4 ridx ++ ofNat 4 eidx)).1

section Loops

variable (m : Bytes) (s : ℕ → ZMod n) (pubs : ℕ → E)

/-! ## Verifying -/

/-- The inner loop of `secp256k1_borromean_verify` from a member on: the challenges, and the point that
goes into the shared hash. -/
def verifyMembers (i count : ℕ) : ℕ → ℕ → ZMod n × Bool → Option (List (ZMod n) × Bytes)
  | 0, _, _ => some ([], [])
  | left + 1, j, (ens, overflow) =>
    if overflow ∨ s (count + j) = 0 ∨ ens = 0 ∨ pubs (count + j) = 0 then none
    else
      let rgej := C.ecmult (pubs (count + j)) ens (s (count + j))
      if rgej = 0 then none
      else
        let tmp := C.pubkeySerialize rgej
        if left = 0 then some ([ens], tmp)
        else do
          let tmp := C.borromeanHash m tmp i (j + 1)
          let (evalues, out) ← verifyMembers i count left (j + 1) (scalarSetB32 n tmp)
          return (ens :: evalues, out)

/-- The outer loop. -/
def verifyRings (e0 : Bytes) : ℕ → ℕ → List ℕ → Option (List (ZMod n) × Bytes)
  | _, _, [] => some ([], [])
  | i, count, rsize :: rsizes => do
    let tmp := C.borromeanHash m e0 i 0
    let (evalues, out) ← C.verifyMembers m s pubs i count rsize 0 (scalarSetB32 n tmp)
    let (evalues', out') ← verifyRings e0 (i + 1) (count + rsize) rsizes
    return (evalues ++ evalues', out ++ out')

/-- `secp256k1_borromean_verify`, with the challenges that it stores. -/
def borromeanVerify (e0 : Bytes) (rsizes : List ℕ) : Option (List (ZMod n)) := do
  let (evalues, out) ← C.verifyRings m s pubs e0 0 0 rsizes
  if e0 = (C.sha256 (out ++ m)).1 then some evalues else none

/-! ## Signing -/

variable (k sec : ℕ → ZMod n) (secidx : ℕ → ℕ)

/-- The members of a ring behind the secret one. -/
def signForward (i count : ℕ) : ℕ → ℕ → Bytes → Option Bytes
  | 0, _, tmp => some tmp
  | left + 1, j, tmp =>
    let tmp := C.borromeanHash m tmp i j
    let (ens, overflow) := scalarSetB32 n tmp
    if overflow ∨ ens = 0 then none
    else
      let rgej := C.ecmult (pubs (count + j)) ens (s (count + j))
      if rgej = 0 then none else signForward i count left (j + 1) (C.pubkeySerialize rgej)

/-- The first loop of `secp256k1_borromean_sign`: what goes into the shared hash. -/
def signFirst : ℕ → ℕ → List ℕ → Option Bytes
  | _, _, [] => some []
  | i, count, rsize :: rsizes => do
    let rgej := C.ecmultGen (k i)
    if rgej = 0 then none
    else
      let tmp ← C.signForward m s pubs i count (rsize - (secidx i + 1)) (secidx i + 1)
        (C.pubkeySerialize rgej)
      let out ← signFirst (i + 1) (count + rsize) rsizes
      return tmp ++ out

/-- The members of a ring before the secret one: its challenge. -/
def signBackward (i count : ℕ) : ℕ → ℕ → ZMod n → Option (ZMod n)
  | 0, _, ens => some ens
  | left + 1, j, ens =>
    let rgej := C.ecmult (pubs (count + j)) ens (s (count + j))
    if rgej = 0 then none
    else
      let tmp := C.borromeanHash m (C.pubkeySerialize rgej) i (j + 1)
      let (ens, overflow) := scalarSetB32 n tmp
      if overflow ∨ ens = 0 then none else signBackward i count left (j + 1) ens

/-- The second loop: the responses, with those of the secret members. -/
def signSecond (e0 : Bytes) : ℕ → ℕ → List ℕ → (ℕ → ZMod n) → Option (ℕ → ZMod n)
  | _, _, [], s => some s
  | i, count, rsize :: rsizes, s =>
    let tmp := C.borromeanHash m e0 i 0
    let (ens, overflow) := scalarSetB32 n tmp
    if overflow ∨ ens = 0 then none
    else do
      let ens ← C.signBackward m s pubs i count (secidx i) 0 ens
      let last := -(ens * sec i) + k i
      if last = 0 then none
      else signSecond e0 (i + 1) (count + rsize) rsizes (Function.update s (count + secidx i) last)

/-- `secp256k1_borromean_sign`: the shared challenge and the responses. -/
def borromeanSign (rsizes : List ℕ) : Option (Bytes × (ℕ → ZMod n)) := do
  let out ← C.signFirst m s pubs k secidx 0 0 rsizes
  let e0 := (C.sha256 (out ++ m)).1
  let s ← C.signSecond m pubs k sec secidx e0 0 0 rsizes s
  return (e0, s)

/-! ## The rings -/

/-- The challenge that the point of a member of ring `i` makes for the next one. -/
def nextChallenge (i : ℕ) (j : ℕ) (r : E) : Option (ZMod n) :=
  let (ens, overflow) := scalarSetB32 n (C.borromeanHash m (C.pubkeySerialize r) i j)
  if overflow ∨ ens = 0 then none else some ens

/-- The ring that begins at an index. -/
def ringAt (count : ℕ) : Members (ZMod n) E := ⟨C.G, fun j => pubs (count + j), fun j => s (count + j)⟩

variable {m s pubs}

omit [DecidableEq E] in
theorem ecmult_eq_answer (count j : ℕ) (e : ZMod n) :
    C.ecmult (pubs (count + j)) e (s (count + j)) = (C.ringAt s pubs count).answer j e := rfl

theorem verifyMembers_refused {i count left j : ℕ} {e : ZMod n × Bool} (h : e.2 = true ∨ e.1 = 0) :
    C.verifyMembers m s pubs i count (left + 1) j e = none := by
  obtain ⟨ens, overflow⟩ := e
  rw [verifyMembers, if_pos]
  rcases h with h | h
  · exact .inl h
  · exact .inr (.inr (.inl h))

theorem verifyMembers_succ {i count left j : ℕ} {ens : ZMod n} (hens : ens ≠ 0)
    (hs : s (count + j) ≠ 0) (hpubs : pubs (count + j) ≠ 0) :
    C.verifyMembers m s pubs i count (left + 1) j (ens, false) =
      let r := (C.ringAt s pubs count).answer j ens
      if r = 0 then none
      else if left = 0 then some ([ens], C.pubkeySerialize r)
      else (C.verifyMembers m s pubs i count left (j + 1)
        (scalarSetB32 n (C.borromeanHash m (C.pubkeySerialize r) i (j + 1)))).map
          fun p => (ens :: p.1, p.2) := by
  have hchecks : ¬ ((false : Bool) = true ∨ s (count + j) = 0 ∨ ens = 0 ∨ pubs (count + j) = 0) := by
    simp [hs, hens, hpubs]
  rw [verifyMembers, if_neg hchecks, ecmult_eq_answer]
  simp only [Option.map_eq_bind]
  rfl

/-- Past the checks, the inner loop of the verifier walks the ring. -/
theorem verifyMembers_eq {i count left j : ℕ} {ens : ZMod n} (hens : ens ≠ 0)
    (hs : ∀ l, j ≤ l → l ≤ j + left → s (count + l) ≠ 0)
    (hpubs : ∀ l, j ≤ l → l ≤ j + left → pubs (count + l) ≠ 0) :
    C.verifyMembers m s pubs i count (left + 1) j (ens, false) =
      (walk (C.nextChallenge m i) (C.ringAt s pubs count) left j ens).map
        fun p => (p.1, C.pubkeySerialize p.2) := by
  induction left generalizing j ens with
  | zero =>
    rw [C.verifyMembers_succ hens (hs j le_rfl le_rfl) (hpubs j le_rfl le_rfl), walk]
    simp only [if_true]
    split <;> rfl
  | succ left ih =>
    rw [C.verifyMembers_succ hens (hs j le_rfl (by omega)) (hpubs j le_rfl (by omega)), walk]
    simp only [Nat.succ_ne_zero, if_false, nextChallenge]
    split
    · rfl
    · by_cases hrefused : (scalarSetB32 n (C.borromeanHash m (C.pubkeySerialize
          ((C.ringAt s pubs count).answer j ens)) i (j + 1))).2 = true ∨ (scalarSetB32 n
          (C.borromeanHash m (C.pubkeySerialize ((C.ringAt s pubs count).answer j ens)) i (j + 1))).1 = 0
      · rw [C.verifyMembers_refused hrefused, if_pos hrefused]
        rfl
      · rw [if_neg hrefused]
        generalize scalarSetB32 n (C.borromeanHash m (C.pubkeySerialize
          ((C.ringAt s pubs count).answer j ens)) i (j + 1)) = e at hrefused ⊢
        obtain ⟨ens', overflow⟩ := e
        obtain ⟨hfits, hens'⟩ := not_or.mp hrefused
        obtain rfl : overflow = false := by simpa using hfits
        rw [ih hens' (fun l hl hle => hs l (by omega) (by omega))
          (fun l hl hle => hpubs l (by omega) (by omega)), Option.bind_some, Option.map_map,
          Option.map_map]
        rfl

/-- The loop behind the secret member goes onward from its point. -/
theorem signForward_eq {i count left j : ℕ} {r : E} {out : Bytes}
    (h : C.signForward m s pubs i count left (j + 1) (C.pubkeySerialize r) = some out) :
    ∃ es r', onward (C.nextChallenge m i) (C.ringAt s pubs count) left j r = some (es, r') ∧
      out = C.pubkeySerialize r' := by
  induction left generalizing j r with
  | zero => exact ⟨[], r, rfl, (Option.some.inj h).symm⟩
  | succ left ih =>
    rw [signForward] at h
    simp only at h
    split at h
    · cases h
    · next hfits =>
      split at h
      · cases h
      · next hinfinity =>
        have hne : (C.ringAt s pubs count).answer (j + 1) (scalarSetB32 n
          (C.borromeanHash m (C.pubkeySerialize r) i (j + 1))).1 ≠ 0 := hinfinity
        obtain ⟨es, r', honward, rfl⟩ := ih h
        have hnext : C.nextChallenge m i (j + 1) r = some (scalarSetB32 n
            (C.borromeanHash m (C.pubkeySerialize r) i (j + 1))).1 := if_neg hfits
        refine ⟨(scalarSetB32 n (C.borromeanHash m (C.pubkeySerialize r) i (j + 1))).1 :: es, r', ?_, rfl⟩
        rw [onward, hnext, Option.bind_some, walk_eq_onward rfl hne]
        exact Option.map_eq_some_iff.mpr ⟨_, honward, rfl⟩

/-- The loop before the secret member reaches it. -/
theorem signBackward_eq {i count left j : ℕ} {ens e : ZMod n} (hens : ens ≠ 0)
    (h : C.signBackward m s pubs i count left j ens = some e) :
    e ≠ 0 ∧ ∃ es, reach (C.nextChallenge m i) (C.ringAt s pubs count) left j ens = some (es, e) := by
  induction left generalizing j ens with
  | zero =>
    obtain rfl := Option.some.inj h
    exact ⟨hens, [], rfl⟩
  | succ left ih =>
    rw [signBackward, ecmult_eq_answer] at h
    simp only at h
    split at h
    · cases h
    · next hne =>
      split at h
      · cases h
      · next hfits =>
        obtain ⟨he, es, hreach⟩ := ih (not_or.mp hfits).2 h
        have hnext : C.nextChallenge m i (j + 1) ((C.ringAt s pubs count).answer j ens) = some _ :=
          if_neg hfits
        refine ⟨he, ens :: es, ?_⟩
        rw [reach, if_neg hne, hnext, Option.bind_some]
        exact Option.map_eq_some_iff.mpr ⟨_, hreach, rfl⟩

/-- A ring that the two parts of the signer made is walked by the verifier. -/
theorem verifyMembers_of_sign {s₀ s' : ℕ → ZMod n} {i count rsize idx : ℕ} {x k ens e : ZMod n}
    {out : Bytes} (hidx : idx < rsize) (hpoint : pubs (count + idx) = x • C.G) (hnonce : k • C.G ≠ 0)
    (hens : ens ≠ 0) (hforward : C.signForward m s₀ pubs i count (rsize - (idx + 1)) (idx + 1)
      (C.pubkeySerialize (k • C.G)) = some out)
    (hbackward : C.signBackward m s pubs i count idx 0 ens = some e)
    (hresponse : s' (count + idx) = k - e * x) (hs : ∀ j, j ≠ idx → j < rsize → s' (count + j) = s (count + j))
    (hs₀ : ∀ j, j ≠ idx → j < rsize → s' (count + j) = s₀ (count + j))
    (hnonzero : ∀ j < rsize, s' (count + j) ≠ 0) (hpubs : ∀ j < rsize, pubs (count + j) ≠ 0) :
    ∃ es, C.verifyMembers m s' pubs i count rsize 0 (ens, false) = some (es, out) ∧
      es.length = rsize ∧ es[idx]? = some e ∧ e ≠ 0 := by
  obtain ⟨es', r, honward, rfl⟩ := C.signForward_eq hforward
  obtain ⟨he, es, hreach⟩ := C.signBackward_eq hens hbackward
  have hlen := length_of_reach hreach
  have hreach' : reach (C.nextChallenge m i) (C.ringAt s' pubs count) idx 0 ens = some (es, e) := by
    rw [← hreach]
    refine reach_congr ens fun j _ hj e => ?_
    simp only [Members.answer, ringAt, hs j (by omega) (by omega)]
  have honward' : onward (C.nextChallenge m i) (C.ringAt s' pubs count) (rsize - (idx + 1)) idx
      (k • C.G) = some (es', r) := by
    rw [← honward]
    refine onward_congr _ fun j hj hle e => ?_
    simp only [Members.answer, ringAt, hs₀ j (by omega) (by omega)]
  have hwalk := walk_close (R := C.ringAt s' pubs count) hpoint hresponse hnonce honward' hreach'
  have hsize : idx + (rsize - (idx + 1)) + 1 = rsize := by omega
  have hverify : C.verifyMembers m s' pubs i count (idx + (rsize - (idx + 1)) + 1) 0 (ens, false) = _ :=
    C.verifyMembers_eq hens (fun j _ hle => hnonzero j (by omega)) fun j _ hle => hpubs j (by omega)
  rw [hsize, hwalk, Option.map_some] at hverify
  refine ⟨_, hverify, ?_, ?_, he⟩
  · rw [length_of_walk hwalk, hsize]
  · rw [List.getElem?_append_right hlen.le, hlen, Nat.sub_self]
    rfl

/-! ## All rings -/

variable {k sec : ℕ → ZMod n} {secidx : ℕ → ℕ}

variable (pubs sec secidx) in
/-- In every ring from one on there is a secret member, and it has the point of its secret. -/
def Secrets : ℕ → ℕ → List ℕ → Prop
  | _, _, [] => True
  | i, count, rsize :: rsizes =>
    secidx i < rsize ∧ pubs (count + secidx i) = sec i • C.G ∧ Secrets (i + 1) (count + rsize) rsizes

variable (secidx) in
/-- The index is the one of a secret member. -/
def SecretAt : ℕ → ℕ → List ℕ → ℕ → Prop
  | _, _, [], _ => False
  | i, count, rsize :: rsizes, j =>
    j = count + secidx i ∨ SecretAt (i + 1) (count + rsize) rsizes j

variable (s k sec secidx) in
/-- The response of every secret member answers the challenge that is stored for it. -/
def Responds : ℕ → ℕ → List ℕ → List (ZMod n) → Prop
  | _, _, [], es => es = []
  | i, count, rsize :: rsizes, es =>
    (∃ e, es[secidx i]? = some e ∧ e ≠ 0 ∧ s (count + secidx i) = k i - e * sec i) ∧
      rsize ≤ es.length ∧ Responds (i + 1) (count + rsize) rsizes (es.drop rsize)

omit [AddCommGroup E] [Module (ZMod n) E] [DecidableEq E] in
/-- The response of a secret member answers a challenge that is not zero. -/
theorem response_of_responds {i count : ℕ} {rsizes : List ℕ} {es : List (ZMod n)}
    (h : Responds s k sec secidx i count rsizes es) {l : ℕ} (hl : l < rsizes.length) :
    ∃ e, es[(rsizes.take l).sum + secidx (i + l)]? = some e ∧ e ≠ 0 ∧
      s (count + (rsizes.take l).sum + secidx (i + l)) = k (i + l) - e * sec (i + l) := by
  induction rsizes generalizing i count l es with
  | nil => exact absurd hl (Nat.not_lt_zero _)
  | cons rsize rsizes ih =>
    obtain ⟨hfirst, -, hlater⟩ := h
    cases l with
    | zero => simpa using hfirst
    | succ l =>
      obtain ⟨e, he, hne, hs⟩ := ih hlater (Nat.lt_of_succ_lt_succ hl)
      have hi : i + 1 + l = i + (l + 1) := by omega
      rw [List.getElem?_drop, hi, ← Nat.add_assoc rsize] at he
      rw [hi, Nat.add_assoc count] at hs
      rw [List.take_succ_cons, List.sum_cons]
      exact ⟨e, he, hne, hs⟩

theorem le_of_secretAt {i count j : ℕ} {rsizes : List ℕ} (h : SecretAt secidx i count rsizes j) :
    count ≤ j := by
  induction rsizes generalizing i count with
  | nil => exact h.elim
  | cons rsize rsizes ih =>
    rcases h with rfl | h
    · exact Nat.le_add_right ..
    · exact le_trans (Nat.le_add_right ..) (ih h)

omit [DecidableEq E] in
theorem lt_of_secretAt {i count j : ℕ} {rsizes : List ℕ} (hsecrets : C.Secrets pubs sec secidx i count rsizes)
    (h : SecretAt secidx i count rsizes j) : j < count + rsizes.sum := by
  induction rsizes generalizing i count with
  | nil => exact h.elim
  | cons rsize rsizes ih =>
    obtain ⟨hidx, -, hsecrets⟩ := hsecrets
    rw [List.sum_cons, ← Nat.add_assoc]
    rcases h with rfl | h
    · omega
    · exact ih hsecrets h

/-- What the second loop does to one ring. -/
theorem signSecond_cons {e0 : Bytes} {i count rsize : ℕ} {rsizes : List ℕ} {s s' : ℕ → ZMod n}
    (h : C.signSecond m pubs k sec secidx e0 i count (rsize :: rsizes) s = some s') :
    ∃ ens e, scalarSetB32 n (C.borromeanHash m e0 i 0) = (ens, false) ∧ ens ≠ 0 ∧
      C.signBackward m s pubs i count (secidx i) 0 ens = some e ∧ k i - e * sec i ≠ 0 ∧
      C.signSecond m pubs k sec secidx e0 (i + 1) (count + rsize) rsizes
        (Function.update s (count + secidx i) (k i - e * sec i)) = some s' := by
  have hlast : ∀ e, -(e * sec i) + k i = k i - e * sec i := fun e => by ring
  rw [signSecond] at h
  generalize hens : scalarSetB32 n (C.borromeanHash m e0 i 0) = first at h
  obtain ⟨ens, overflow⟩ := first
  simp only at h
  split at h
  · cases h
  · next hfits =>
    obtain ⟨hover, hne⟩ := not_or.mp hfits
    obtain rfl : overflow = false := by simpa using hover
    obtain ⟨e, hbackward, h⟩ := Option.bind_eq_some_iff.mp h
    simp only [hlast] at h
    split at h
    · cases h
    · next hzero => exact ⟨ens, e, rfl, hne, hbackward, hzero, h⟩

/-- The second loop changes the responses of the secret members. -/
theorem signSecond_frame {e0 : Bytes} {i count : ℕ} {rsizes : List ℕ} {s s' : ℕ → ZMod n}
    (h : C.signSecond m pubs k sec secidx e0 i count rsizes s = some s') {j : ℕ}
    (hj : ¬ SecretAt secidx i count rsizes j) : s' j = s j := by
  induction rsizes generalizing i count s with
  | nil =>
    obtain rfl := Option.some.inj h
    rfl
  | cons rsize rsizes ih =>
    obtain ⟨ens, e, -, -, -, -, hrest⟩ := C.signSecond_cons h
    obtain ⟨hself, hlater⟩ := not_or.mp hj
    rw [ih hrest hlater, Function.update_of_ne hself]

/-- The shared challenge is a hash, and the responses of the other members stay. -/
theorem borromeanSign_frame {rsizes : List ℕ} {e0 : Bytes} {s' : ℕ → ZMod n}
    (h : C.borromeanSign m s pubs k sec secidx rsizes = some (e0, s')) :
    e0.length = 32 ∧ ∀ j, ¬ SecretAt secidx 0 0 rsizes j → s' j = s j := by
  obtain ⟨out, -, h⟩ := Option.bind_eq_some_iff.mp h
  obtain ⟨s₁, hsecond, h⟩ := Option.bind_eq_some_iff.mp h
  obtain ⟨rfl, rfl⟩ := Prod.mk.inj (Option.some.inj h)
  exact ⟨(C.sha256 _).2, fun j hj => C.signSecond_frame hsecond hj⟩

theorem secretAt_iff {i count j : ℕ} {rsizes : List ℕ} : SecretAt secidx i count rsizes j ↔
    ∃ l < rsizes.length, j = count + (rsizes.take l).sum + secidx (i + l) := by
  induction rsizes generalizing i count with
  | nil => simp [SecretAt]
  | cons rsize rsizes ih =>
    rw [SecretAt, ih]
    constructor
    · rintro (rfl | ⟨l, hl, rfl⟩)
      · exact ⟨0, Nat.zero_lt_succ _, by simp⟩
      · refine ⟨l + 1, Nat.succ_lt_succ hl, ?_⟩
        rw [List.take_succ_cons, List.sum_cons, Nat.add_right_comm i, ← Nat.add_assoc i]
        omega
    · rintro ⟨l, hl, rfl⟩
      cases l with
      | zero => exact .inl (by simp)
      | succ l =>
        refine .inr ⟨l, Nat.lt_of_succ_lt_succ hl, ?_⟩
        rw [List.take_succ_cons, List.sum_cons, Nat.add_right_comm i, ← Nat.add_assoc i]
        omega

/-- What the first loop does to one ring. -/
theorem signFirst_cons {i count rsize : ℕ} {rsizes : List ℕ} {out : Bytes}
    (h : C.signFirst m s pubs k secidx i count (rsize :: rsizes) = some out) :
    ∃ tmp rest, k i • C.G ≠ 0 ∧ C.signForward m s pubs i count (rsize - (secidx i + 1)) (secidx i + 1)
        (C.pubkeySerialize (k i • C.G)) = some tmp ∧
      C.signFirst m s pubs k secidx (i + 1) (count + rsize) rsizes = some rest ∧ out = tmp ++ rest := by
  rw [signFirst] at h
  split at h
  · cases h
  · next hne =>
    obtain ⟨tmp, htmp, h⟩ := Option.bind_eq_some_iff.mp h
    obtain ⟨rest, hrest, hout⟩ := Option.bind_eq_some_iff.mp h
    exact ⟨tmp, rest, hne, htmp, hrest, (Option.some.inj hout).symm⟩

/-- The rings of the two loops are verified one after the other. -/
theorem verifyRings_of_sign {e0 out : Bytes} {i count : ℕ} {rsizes : List ℕ} {s₀ s s' : ℕ → ZMod n}
    (hfirst : C.signFirst m s₀ pubs k secidx i count rsizes = some out)
    (hsecond : C.signSecond m pubs k sec secidx e0 i count rsizes s = some s')
    (hsame : ∀ j, count ≤ j → s j = s₀ j) (hsecrets : C.Secrets pubs sec secidx i count rsizes)
    (hpubs : ∀ j, count ≤ j → j < count + rsizes.sum → pubs j ≠ 0)
    (hforged : ∀ j, count ≤ j → j < count + rsizes.sum → ¬ SecretAt secidx i count rsizes j → s₀ j ≠ 0) :
    ∃ es, C.verifyRings m s' pubs e0 i count rsizes = some (es, out) ∧
      Responds s' k sec secidx i count rsizes es := by
  induction rsizes generalizing i count s out with
  | nil =>
    cases hfirst
    exact ⟨[], rfl, rfl⟩
  | cons rsize rsizes ih =>
    obtain ⟨tmp, rest, hnonce, hforward, hrest, rfl⟩ := C.signFirst_cons hfirst
    obtain ⟨ens, e, hens, hne, hbackward, hzero, hlater⟩ := C.signSecond_cons hsecond
    obtain ⟨hidx, hpoint, hsecrets⟩ := hsecrets
    simp only [List.sum_cons, ← Nat.add_assoc] at hpubs hforged
    -- a later ring leaves the responses of this one alone
    have hapart : ∀ j < rsize, ¬ SecretAt secidx (i + 1) (count + rsize) rsizes (count + j) := by
      intro j hj hat
      have hle := le_of_secretAt hat
      omega
    have hresponse : s' (count + secidx i) = k i - e * sec i := by
      rw [C.signSecond_frame hlater (hapart _ hidx), Function.update_self]
    have hfar : ∀ j, j ≠ secidx i → j < rsize → ¬ SecretAt secidx i count (rsize :: rsizes) (count + j) := by
      rintro j hj hlt (hat | hat)
      · omega
      · exact hapart j hlt hat
    have hs : ∀ j, j ≠ secidx i → j < rsize → s' (count + j) = s (count + j) := fun j hj hlt =>
      C.signSecond_frame hsecond (hfar j hj hlt)
    have hs₀ : ∀ j, j ≠ secidx i → j < rsize → s' (count + j) = s₀ (count + j) := fun j hj hlt =>
      (hs j hj hlt).trans (hsame _ (Nat.le_add_right ..))
    have hnonzero : ∀ j < rsize, s' (count + j) ≠ 0 := by
      intro j hlt
      by_cases hj : j = secidx i
      · rw [hj, hresponse]
        exact hzero
      · rw [hs₀ j hj hlt]
        exact hforged _ (Nat.le_add_right ..) (by omega) (hfar j hj hlt)
    obtain ⟨es, hverify, hlen, hget, he⟩ := C.verifyMembers_of_sign hidx hpoint hnonce hne hforward
      hbackward hresponse hs hs₀ hnonzero fun j hj => hpubs _ (Nat.le_add_right ..) (by omega)
    obtain ⟨es', hverify', hresponds⟩ := ih hrest hlater
      (fun j hj => by
        rw [Function.update_of_ne (by omega)]
        exact hsame j (by omega)) hsecrets (fun j hj => hpubs j (by omega)) fun j hj hlt hat => by
        refine hforged j (by omega) hlt ?_
        rintro (rfl | hat')
        · omega
        · exact hat hat'
    refine ⟨es ++ es', ?_, ⟨e, ?_, he, hresponse⟩, ?_, ?_⟩
    · rw [verifyRings, hens]
      simp only [hverify, hverify', Option.bind_eq_bind, Option.bind_some]
      rfl
    · rwa [List.getElem?_append_left (by rw [hlen]; exact hidx)]
    · rw [List.length_append, hlen]
      exact Nat.le_add_right ..
    · rw [← hlen, List.drop_left]
      rwa [hlen]

/-- The verifier refuses a point at infinity. -/
theorem pubs_ne_zero_of_verifyMembers {i count left j : ℕ} {e : ZMod n × Bool}
    {r : List (ZMod n) × Bytes} (h : C.verifyMembers m s pubs i count left j e = some r) :
    ∀ l, j ≤ l → l < j + left → pubs (count + l) ≠ 0 := by
  induction left generalizing j e r with
  | zero => exact fun l hl hlt => by omega
  | succ left ih =>
    obtain ⟨ens, overflow⟩ := e
    rw [verifyMembers] at h
    split at h
    · cases h
    · next hchecks =>
      simp only [not_or] at hchecks
      simp only at h
      split at h
      · cases h
      · intro l hl hlt
        by_cases hfirst : l = j
        · rw [hfirst]
          exact hchecks.2.2.2
        · split at h
          · omega
          · obtain ⟨r', hr', -⟩ := Option.bind_eq_some_iff.mp h
            exact ih hr' l (by omega) (by omega)

theorem pubs_ne_zero_of_verifyRings {e0 : Bytes} {i count : ℕ} {rsizes : List ℕ}
    {r : List (ZMod n) × Bytes} (h : C.verifyRings m s pubs e0 i count rsizes = some r) :
    ∀ j, count ≤ j → j < count + rsizes.sum → pubs j ≠ 0 := by
  induction rsizes generalizing i count r with
  | nil => exact fun j hj hlt => by simp at hlt; omega
  | cons rsize rsizes ih =>
    obtain ⟨first, hfirst, h⟩ := Option.bind_eq_some_iff.mp h
    obtain ⟨later, hlater, -⟩ := Option.bind_eq_some_iff.mp h
    intro j hj hlt
    rw [List.sum_cons] at hlt
    by_cases hring : j < count + rsize
    · have hmember := C.pubs_ne_zero_of_verifyMembers hfirst (j - count) (Nat.zero_le _) (by omega)
      rwa [Nat.add_sub_cancel' hj] at hmember
    · exact ih hlater j (by omega) (by omega)

theorem pubs_ne_zero_of_borromeanVerify {e0 : Bytes} {rsizes : List ℕ} {es : List (ZMod n)}
    (h : C.borromeanVerify m s pubs e0 rsizes = some es) : ∀ j < rsizes.sum, pubs j ≠ 0 := by
  obtain ⟨r, hr, -⟩ := Option.bind_eq_some_iff.mp h
  exact fun j hj => C.pubs_ne_zero_of_verifyRings hr j (Nat.zero_le _) (by simpa using hj)

/-- What was signed is verified, when the secrets are those of their points, the other responses are
not zero and no point is at infinity. The challenges are the ones that were answered. -/
theorem borromean_complete {rsizes : List ℕ} {e0 : Bytes} {s' : ℕ → ZMod n}
    (h : C.borromeanSign m s pubs k sec secidx rsizes = some (e0, s'))
    (hsecrets : C.Secrets pubs sec secidx 0 0 rsizes) (hpubs : ∀ j < rsizes.sum, pubs j ≠ 0)
    (hforged : ∀ j < rsizes.sum, ¬ SecretAt secidx 0 0 rsizes j → s j ≠ 0) :
    ∃ es, C.borromeanVerify m s' pubs e0 rsizes = some es ∧ Responds s' k sec secidx 0 0 rsizes es := by
  obtain ⟨out, hfirst, h⟩ := Option.bind_eq_some_iff.mp h
  obtain ⟨s₁, hsecond, h⟩ := Option.bind_eq_some_iff.mp h
  obtain ⟨rfl, rfl⟩ := Prod.mk.inj (Option.some.inj h)
  obtain ⟨es, hverify, hresponds⟩ := C.verifyRings_of_sign hfirst hsecond (fun _ _ => rfl) hsecrets
    (fun j _ hj => hpubs j (by simpa using hj)) fun j _ hj => hforged j (by simpa using hj)
  refine ⟨es, ?_, hresponds⟩
  rw [borromeanVerify, hverify]
  exact if_pos rfl

end Loops

end Curve

end GrinDotnet
