import GrinDotnet.Keychain.KeyRecovery
import GrinDotnet.Lib.Pool

/-!
# Lookups that share a cache

Several threads call `Derived_key` of one keychain. Each scans on its own, but they read and fill one
derivation cache, of which single operations are atomic and nothing more is.

`LookupPhase` is a call between two of its steps, `lookupMove` the step. An entry of the cache stays
when it is there, so what matters is which child comes first: a call adds the child of an index only
when the identifiers of all children before it are in the cache already.

Results:
1. `alone`: a call that nothing disturbs does what `derivedKeyStep` does.
2. `cache_transparent`: in every run the cache maps an identifier to its smallest index, every call
   ends, and with the result that it has on its own with an empty cache.
-/

namespace GrinDotnet

open BigEndian Outcome

variable {env : Env}

namespace Keychain

open KeychainLemmas

/-- A call of `Derived_key` between two steps. -/
inductive LookupPhase (N : Native)
  | start
  /-- There is no override. -/
  | consult
  /-- The cache had an index. -/
  | hit (derivation : UInt32)
  /-- At the head of the loop. -/
  | loop (i : ℕ)
  /-- The child of an index is derived. -/
  | derived (i : ℕ) (extkeyNew : ExtendedKey N) (ident : Identifier)
  /-- The cache did not contain the child's identifier. -/
  | missed (i : ℕ) (extkeyNew : ExtendedKey N) (ident : Identifier)
  /-- The child's identifier is in the cache. -/
  | filed (i : ℕ) (extkeyNew : ExtendedKey N) (ident : Identifier)
  | ended (result : Except Exn (SecretKey N))

/-- One step of `Keychain.Derived_key`. -/
def lookupMove (kc : Keychain env) (keyId : Identifier) :
    LookupPhase env.secp → Dictionary String UInt32 →
      LookupPhase env.secp × Dictionary String UInt32
  | .start, cache =>
    match kc.keyOverrides.lookup keyId.hexValue with
    | some sk => (.ended (.ok sk), cache)
    | none => (.consult, cache)
  | .consult, cache =>
    match cache.lookup keyId.hexValue with
    | some derivation => (.hit derivation, cache)
    | none => (.loop 1, cache)
  | .hit derivation, cache => (.ended (kc.derivedKeyFromIndex derivation), cache)
  | .loop i, cache =>
    if i ≤ maxDerivations then
      match kc.extkey.deriveIdent env kc.secp (UInt32.ofNat i) with
      | .error e => (.ended (.error e), cache)
      | .ok (extkeyNew, ident) => (.derived i extkeyNew ident, cache)
    else
      (.ended (.error (.exception ("KeyDerivation - cannot find extkey for " ++ keyId.hexValue))),
        cache)
  | .derived i extkeyNew ident, cache =>
    if (cache.lookup ident.hexValue).isSome then (.filed i extkeyNew ident, cache)
    else (.missed i extkeyNew ident, cache)
  | .missed i extkeyNew ident, cache =>
    (.filed i extkeyNew ident, tryAdd cache ident.hexValue extkeyNew.nChild)
  | .filed i extkeyNew ident, cache =>
    if ident.hexValue = keyId.hexValue then (.ended (.ok extkeyNew.key), cache)
    else (.loop (i + 1), cache)
  | .ended result, cache => (.ended result, cache)

/-- The keychain with an empty cache. -/
def emptied (kc : Keychain env) : Keychain env where
  secp := kc.secp
  extkey := kc.extkey
  keyOverrides := kc.keyOverrides
  keyDerivationCache := Dictionary.empty
  caps_commit := kc.caps_commit
  cache_entry := fun _ _ h => nomatch h

/-- The index is the smallest one up to the limit whose child has the identifier. -/
def SmallestIndex (kc : Keychain env) (hex : String) (n : UInt32) : Prop :=
  (1 ≤ n.toNat ∧ n.toNat ≤ maxDerivations) ∧
    (∃ id, kc.deriveKeyId n = .ok id ∧ id.hexValue = hex) ∧
    ∀ j id, 1 ≤ j.toNat → kc.deriveKeyId j = .ok id → id.hexValue = hex → n ≤ j

/-! ## A call on its own -/

section Alone

variable {kc : Keychain env} {keyId : Identifier}

/-- Some steps of a call lead from one phase and cache to another. -/
def Leads (kc : Keychain env) (keyId : Identifier)
    (x y : LookupPhase env.secp × Dictionary String UInt32) : Prop :=
  ∃ k : ℕ, (fun z => kc.lookupMove keyId z.1 z.2)^[k] x = y

theorem leads_step {x y : LookupPhase env.secp × Dictionary String UInt32}
    (h : Leads kc keyId (kc.lookupMove keyId x.1 x.2) y) : Leads kc keyId x y := by
  obtain ⟨k, hk⟩ := h
  exact ⟨k + 1, hk⟩

theorem leads_refl (x : LookupPhase env.secp × Dictionary String UInt32) : Leads kc keyId x x :=
  ⟨0, rfl⟩

theorem tryAdd_of_lookup {cache : Dictionary String UInt32} {hex : String} (n : UInt32)
    (h : (cache.lookup hex).isSome) : tryAdd cache hex n = cache := by
  obtain ⟨m, hm⟩ := Option.isSome_iff_exists.mp h
  rw [tryAdd, Dictionary.add_eq_none_iff.mpr ⟨m, hm⟩]
  rfl

/-- Asking the cache before adding to it changes nothing. -/
theorem leads_filed {i : ℕ} {child : ExtendedKey env.secp} {ident : Identifier}
    {cache : Dictionary String UInt32} {y : LookupPhase env.secp × Dictionary String UInt32}
    (h : Leads kc keyId (.filed i child ident, tryAdd cache ident.hexValue child.nChild) y) :
    Leads kc keyId (.derived i child ident, cache) y := by
  refine leads_step ?_
  by_cases hsome : (cache.lookup ident.hexValue).isSome
  · rw [tryAdd_of_lookup child.nChild hsome] at h
    simpa only [lookupMove, hsome, if_true] using h
  · simp only [lookupMove, hsome]
    exact leads_step h

/-- From the head of the loop on, a call does what the scan does. -/
theorem leads_scanKeys (fuel i : ℕ) (hi : i + fuel = maxDerivations + 1)
    (cache : Dictionary String UInt32) :
    Leads kc keyId (.loop i, cache)
      (.ended (scanKeys kc.secp kc.extkey keyId.hexValue fuel i cache).1,
        (scanKeys kc.secp kc.extkey keyId.hexValue fuel i cache).2) := by
  induction fuel generalizing i cache with
  | zero =>
    refine leads_step ?_
    have hlast : ¬ i ≤ maxDerivations := by omega
    simp only [lookupMove, hlast, if_false]
    exact leads_refl _
  | succ fuel ih =>
    refine leads_step ?_
    have hhere : i ≤ maxDerivations := by omega
    unfold scanKeys
    simp only [lookupMove, hhere, if_true]
    cases kc.extkey.deriveIdent env kc.secp (UInt32.ofNat i) with
    | error e => exact leads_refl _
    | ok p =>
      obtain ⟨child, ident⟩ := p
      refine leads_filed (leads_step ?_)
      by_cases hhex : ident.hexValue = keyId.hexValue
      · simp only [lookupMove, hhex, if_true]
        exact leads_refl _
      · simp only [lookupMove, hhex, if_false]
        exact ih (i + 1) (by omega) _

/-- A call that nothing disturbs does what `derivedKeyStep` does. -/
theorem alone (kc : Keychain env) (keyId : Identifier) :
    Leads kc keyId (.start, kc.keyDerivationCache)
      (.ended (kc.derivedKeyStep keyId).1, (kc.derivedKeyStep keyId).2.keyDerivationCache) := by
  refine leads_step ?_
  unfold derivedKeyStep
  cases hover : kc.keyOverrides.lookup keyId.hexValue with
  | some sk =>
    simp only [lookupMove, hover]
    exact leads_refl _
  | none =>
    simp only [lookupMove, hover]
    refine leads_step ?_
    cases hcache : kc.keyDerivationCache.lookup keyId.hexValue with
    | some derivation =>
      simp only [lookupMove, hcache]
      exact leads_step (leads_refl _)
    | none =>
      simp only [lookupMove, hcache]
      exact leads_scanKeys maxDerivations 1 (Nat.add_comm _ _) _

end Alone

/-! ## What the steps keep -/

section Step

variable {kc : Keychain env} {keyId : Identifier}

/-- Every entry of the cache is the first child with its identifier. -/
def Filled (kc : Keychain env) (cache : Dictionary String UInt32) : Prop :=
  ∀ hex n, cache.lookup hex = some n → ∃ m child, n = UInt32.ofNat m ∧ m ≤ maxDerivations ∧
    FirstAt kc.secp kc.extkey hex 1 m child

/-- The children before an index are in the cache, and none is the one that is looked for. -/
def Passed (kc : Keychain env) (keyId : Identifier) (cache : Dictionary String UInt32) (i : ℕ) :
    Prop :=
  ∀ j, 1 ≤ j → j < i → ∃ child ident,
    kc.extkey.deriveIdent env kc.secp (UInt32.ofNat j) = .ok (child, ident) ∧
      ident.hexValue ≠ keyId.hexValue ∧ cache.lookup ident.hexValue ≠ none

/-- The call is at a child in reach. -/
structure AtChild (kc : Keychain env) (keyId : Identifier) (cache : Dictionary String UInt32)
    (i : ℕ) (child : ExtendedKey env.secp) (ident : Identifier) : Prop where
  override : kc.keyOverrides.lookup keyId.hexValue = none
  one_le : 1 ≤ i
  le_max : i ≤ maxDerivations
  derive : kc.extkey.deriveIdent env kc.secp (UInt32.ofNat i) = .ok (child, ident)
  passed : Passed kc keyId cache i

/-- What a call knows in each phase. -/
def Knows (kc : Keychain env) (keyId : Identifier) (cache : Dictionary String UInt32) :
    LookupPhase env.secp → Prop
  | .start => True
  | .consult => kc.keyOverrides.lookup keyId.hexValue = none
  | .hit derivation => kc.keyOverrides.lookup keyId.hexValue = none ∧
      ∃ m child, derivation = UInt32.ofNat m ∧ m ≤ maxDerivations ∧
        FirstAt kc.secp kc.extkey keyId.hexValue 1 m child
  | .loop i => kc.keyOverrides.lookup keyId.hexValue = none ∧ 1 ≤ i ∧ i ≤ maxDerivations + 1 ∧
      Passed kc keyId cache i
  | .derived i child ident => AtChild kc keyId cache i child ident
  | .missed i child ident => AtChild kc keyId cache i child ident
  | .filed i child ident => AtChild kc keyId cache i child ident ∧
      cache.lookup ident.hexValue ≠ none
  | .ended result => result = kc.emptied.derivedKey keyId

/-- The cache only grows. -/
def Grows (cache cache' : Dictionary String UInt32) : Prop :=
  ∀ hex n, cache.lookup hex = some n → cache'.lookup hex = some n

theorem grows_refl (cache : Dictionary String UInt32) : Grows cache cache := fun _ _ h => h

theorem grows_tryAdd (cache : Dictionary String UInt32) (hex : String) (n : UInt32) :
    Grows cache (tryAdd cache hex n) := fun _ _ h => lookup_tryAdd_of_some h hex n

theorem lookup_ne_none_of_grows {cache cache' : Dictionary String UInt32} (h : Grows cache cache')
    {hex : String} (hsome : cache.lookup hex ≠ none) : cache'.lookup hex ≠ none := by
  obtain ⟨n, hn⟩ := Option.ne_none_iff_exists'.mp hsome
  rw [h hex n hn]
  exact Option.some_ne_none n

theorem passed_of_grows {cache cache' : Dictionary String UInt32} (h : Grows cache cache') {i : ℕ}
    (hpassed : Passed kc keyId cache i) : Passed kc keyId cache' i := by
  intro j hj hji
  obtain ⟨child, ident, hd, hne, hsome⟩ := hpassed j hj hji
  exact ⟨child, ident, hd, hne, lookup_ne_none_of_grows h hsome⟩

theorem atChild_of_grows {cache cache' : Dictionary String UInt32} (h : Grows cache cache') {i : ℕ}
    {child : ExtendedKey env.secp} {ident : Identifier}
    (hat : AtChild kc keyId cache i child ident) : AtChild kc keyId cache' i child ident :=
  { hat with passed := passed_of_grows h hat.passed }

/-- What a call knows stays true while others fill the cache. -/
theorem knows_of_grows {cache cache' : Dictionary String UInt32} (h : Grows cache cache')
    {phase : LookupPhase env.secp} (hknows : Knows kc keyId cache phase) :
    Knows kc keyId cache' phase := by
  cases phase with
  | start | consult | hit | ended => exact hknows
  | loop i => exact ⟨hknows.1, hknows.2.1, hknows.2.2.1, passed_of_grows h hknows.2.2.2⟩
  | derived | missed => exact atChild_of_grows h hknows
  | filed => exact ⟨atChild_of_grows h hknows.1, lookup_ne_none_of_grows h hknows.2⟩

/-- A child whose identifier is new in the cache is the first one with it: those before it are in
the cache. -/
theorem filled_tryAdd {cache : Dictionary String UInt32} {i : ℕ} {child : ExtendedKey env.secp}
    {ident : Identifier} (hfilled : Filled kc cache) (hat : AtChild kc keyId cache i child ident) :
    Filled kc (tryAdd cache ident.hexValue child.nChild) := by
  intro hex n h
  rw [lookup_tryAdd] at h
  split at h
  · next hnew =>
    obtain ⟨rfl, hnone⟩ := hnew
    have hchild : child.nChild = UInt32.ofNat i :=
      ExtendedKey.nChild_of_derive (ExtendedKey.deriveIdent_eq_ok.mp hat.derive).1
    refine ⟨i, child, ((Option.some.inj h).symm.trans hchild), hat.le_max, hat.one_le,
      ⟨ident, hat.derive, rfl⟩, fun j hj hji => ?_⟩
    obtain ⟨child', ident', hd, -, hsome⟩ := hat.passed j hj hji
    refine ⟨child', ident', hd, fun he => hsome ?_⟩
    rw [he]
    exact hnone
  · exact hfilled hex n h

/-- Without an override, a call with an empty cache answers what the scan answers. -/
theorem derivedKey_emptied (hover : kc.keyOverrides.lookup keyId.hexValue = none) :
    kc.emptied.derivedKey keyId
      = (scanKeys kc.secp kc.extkey keyId.hexValue maxDerivations 1 Dictionary.empty).1 := by
  rw [derivedKey_eq]
  unfold emptied
  simp only [hover, Dictionary.lookup_empty]

/-- A call that has passed some children is still to do what the scan does from there on. -/
theorem derivedKey_of_passed {cache : Dictionary String UInt32} {i fuel : ℕ}
    (hover : kc.keyOverrides.lookup keyId.hexValue = none) (hi : i + fuel = maxDerivations)
    (hpassed : Passed kc keyId cache (i + 1)) :
    kc.emptied.derivedKey keyId
      = (scanKeys kc.secp kc.extkey keyId.hexValue fuel (i + 1) cache).1 := by
  rw [derivedKey_emptied hover, ← hi, Nat.add_comm i 1]
  refine scanKeys_skip fuel (fun j hj hji => ?_) _ _
  obtain ⟨child, ident, hd, hne, -⟩ := hpassed j hj (by omega)
  exact ⟨child, ident, hd, hne⟩

/-- A step keeps the cache filled in order, knows what it has to know, and takes nothing away. -/
structure Kept (kc : Keychain env) (keyId : Identifier) (cache : Dictionary String UInt32)
    (r : LookupPhase env.secp × Dictionary String UInt32) : Prop where
  filled : Filled kc r.2
  knows : Knows kc keyId r.2 r.1
  grows : Grows cache r.2

section Kept

variable {cache : Dictionary String UInt32} (hfilled : Filled kc cache)

include hfilled

/-- A step that leaves the cache as it is only has to know what comes next. -/
theorem kept_of_knows {phase : LookupPhase env.secp} (h : Knows kc keyId cache phase) :
    Kept kc keyId cache (phase, cache) := ⟨hfilled, h, grows_refl cache⟩

theorem kept_start : Kept kc keyId cache (kc.lookupMove keyId .start cache) := by
  cases hover : kc.keyOverrides.lookup keyId.hexValue with
  | none =>
    simp only [lookupMove, hover]
    exact kept_of_knows hfilled hover
  | some sk =>
    simp only [lookupMove, hover]
    refine kept_of_knows hfilled ?_
    show Except.ok sk = kc.emptied.derivedKey keyId
    rw [derivedKey_eq]
    unfold emptied
    simp only [hover]

theorem kept_consult (hover : kc.keyOverrides.lookup keyId.hexValue = none) :
    Kept kc keyId cache (kc.lookupMove keyId .consult cache) := by
  cases hcache : cache.lookup keyId.hexValue with
  | some derivation =>
    simp only [lookupMove, hcache]
    exact kept_of_knows hfilled ⟨hover, hfilled _ _ hcache⟩
  | none =>
    simp only [lookupMove, hcache]
    refine kept_of_knows hfilled ⟨hover, le_rfl, Nat.le_add_left _ _, fun j hj hj1 => ?_⟩
    exact absurd hj (Nat.not_le_of_lt hj1)

/-- The entry that was found is the first child with the identifier, and so what the scan finds. -/
theorem kept_hit {derivation : UInt32} (h : Knows kc keyId cache (.hit derivation)) :
    Kept kc keyId cache (kc.lookupMove keyId (.hit derivation) cache) := by
  obtain ⟨hover, m, child, rfl, hm, hfirst⟩ := h
  refine kept_of_knows hfilled ?_
  show kc.derivedKeyFromIndex (UInt32.ofNat m) = kc.emptied.derivedKey keyId
  obtain ⟨ident, hd, -⟩ := hfirst.2.1
  rw [derivedKey_emptied hover, derivedKeyFromIndex_of_deriveIdent hd,
    scanKeys_of_firstAt hfirst (Nat.lt_one_add_iff.mpr hm)]

theorem kept_loop {i : ℕ} (h : Knows kc keyId cache (.loop i)) :
    Kept kc keyId cache (kc.lookupMove keyId (.loop i) cache) := by
  obtain ⟨hover, hone, hle, hpassed⟩ := h
  obtain ⟨i, rfl⟩ := Nat.exists_eq_add_of_le' hone
  by_cases hi : i + 1 ≤ maxDerivations
  · obtain ⟨rest, hrest⟩ := Nat.exists_eq_add_of_le hi
    cases hd : kc.extkey.deriveIdent env kc.secp (UInt32.ofNat (i + 1)) with
    | ok p =>
      simp only [lookupMove, hi, if_true, hd]
      exact kept_of_knows hfilled ⟨hover, hone, hi, hd, hpassed⟩
    | error e =>
      simp only [lookupMove, hi, if_true, hd]
      refine kept_of_knows hfilled ?_
      show Except.error e = kc.emptied.derivedKey keyId
      have hreach : i + (rest + 1) = maxDerivations := by omega
      rw [derivedKey_of_passed hover hreach hpassed]
      simp only [scanKeys, hd]
  · simp only [lookupMove, hi, if_false]
    have hreach : i + 0 = maxDerivations := by omega
    exact kept_of_knows hfilled (derivedKey_of_passed hover hreach hpassed).symm

section AtChild

variable {i : ℕ} {child : ExtendedKey env.secp} {ident : Identifier}
  (hat : AtChild kc keyId cache i child ident)

include hat

theorem kept_derived : Kept kc keyId cache (kc.lookupMove keyId (.derived i child ident) cache) := by
  cases hsome : (cache.lookup ident.hexValue).isSome with
  | true =>
    simp only [lookupMove, hsome, if_true]
    exact kept_of_knows hfilled ⟨hat, Option.ne_none_iff_isSome.mpr hsome⟩
  | false =>
    simp only [lookupMove, hsome, Bool.false_eq_true, if_false]
    exact kept_of_knows hfilled hat

/-- The one step that writes. -/
theorem kept_missed : Kept kc keyId cache (kc.lookupMove keyId (.missed i child ident) cache) := by
  have hgrows := grows_tryAdd cache ident.hexValue child.nChild
  refine ⟨filled_tryAdd hfilled hat, ⟨atChild_of_grows hgrows hat, ?_⟩, hgrows⟩
  show (tryAdd cache ident.hexValue child.nChild).lookup ident.hexValue ≠ none
  rw [lookup_tryAdd]
  split
  · exact Option.some_ne_none _
  · next hold => exact fun hnone => hold ⟨rfl, hnone⟩

theorem kept_filed (hsome : cache.lookup ident.hexValue ≠ none) :
    Kept kc keyId cache (kc.lookupMove keyId (.filed i child ident) cache) := by
  by_cases hhex : ident.hexValue = keyId.hexValue
  · simp only [lookupMove, hhex, if_true]
    refine kept_of_knows hfilled ?_
    have hfirst : FirstAt kc.secp kc.extkey keyId.hexValue 1 i child := by
      refine ⟨hat.one_le, ⟨ident, hat.derive, hhex⟩, fun j hj hji => ?_⟩
      obtain ⟨child', ident', hd, hne, -⟩ := hat.passed j hj hji
      exact ⟨child', ident', hd, hne⟩
    show Except.ok child.key = kc.emptied.derivedKey keyId
    rw [derivedKey_emptied hat.override,
      scanKeys_of_firstAt hfirst (Nat.lt_one_add_iff.mpr hat.le_max)]
  · simp only [lookupMove, hhex, if_false]
    refine kept_of_knows hfilled ⟨hat.override, Nat.le_add_left _ _, Nat.succ_le_succ hat.le_max,
      fun j hj hji => ?_⟩
    rcases Nat.lt_or_eq_of_le (Nat.le_of_lt_succ hji) with hlt | rfl
    · exact hat.passed j hj hlt
    · exact ⟨child, ident, hat.derive, hhex, hsome⟩

end AtChild

/-- One case per phase. -/
theorem kept_move {phase : LookupPhase env.secp} (hknows : Knows kc keyId cache phase) :
    Kept kc keyId cache (kc.lookupMove keyId phase cache) := by
  cases phase with
  | start => exact kept_start hfilled
  | consult => exact kept_consult hfilled hknows
  | hit => exact kept_hit hfilled hknows
  | loop => exact kept_loop hfilled hknows
  | derived => exact kept_derived hfilled hknows
  | missed => exact kept_missed hfilled hknows
  | filed => exact kept_filed hfilled hknows.1 hknows.2
  | ended => exact kept_of_knows hfilled hknows

end Kept

/-- How many steps a call has before it at most. -/
def LookupPhase.rank {N : Native} : LookupPhase N → ℕ
  | .start => 4 * maxDerivations + 3
  | .consult => 4 * maxDerivations + 2
  | .hit _ => 1
  | .loop i => 4 * (maxDerivations + 1 - i) + 1
  | .derived i _ _ => 4 * (maxDerivations - i) + 4
  | .missed i _ _ => 4 * (maxDerivations - i) + 3
  | .filed i _ _ => 4 * (maxDerivations - i) + 2
  | .ended _ => 0

theorem exists_ended_of_rank {N : Native} {phase : LookupPhase N} (h : phase.rank = 0) :
    ∃ result, phase = .ended result := by
  cases phase with
  | ended result => exact ⟨result, rfl⟩
  | start | consult | hit | loop | derived | missed | filed => cases h

theorem rank_move (kc : Keychain env) (keyId : Identifier) (phase : LookupPhase env.secp)
    (cache : Dictionary String UInt32) :
    (kc.lookupMove keyId phase cache).1.rank = 0 ∨
      (kc.lookupMove keyId phase cache).1.rank < phase.rank := by
  cases phase with
  | start =>
    cases hover : kc.keyOverrides.lookup keyId.hexValue <;> simp [lookupMove, hover, LookupPhase.rank]
  | consult =>
    cases hcache : cache.lookup keyId.hexValue <;> simp [lookupMove, hcache, LookupPhase.rank]
  | loop i =>
    by_cases hi : i ≤ maxDerivations
    · cases hd : kc.extkey.deriveIdent env kc.secp (UInt32.ofNat i) with
      | error e => simp [lookupMove, hi, hd, LookupPhase.rank]
      | ok p =>
        simp only [lookupMove, hi, if_true, hd, LookupPhase.rank]
        omega
    · simp [lookupMove, hi, LookupPhase.rank]
  | derived i child ident =>
    cases hsome : (cache.lookup ident.hexValue).isSome <;>
      simp [lookupMove, hsome, LookupPhase.rank]
  | filed i child ident =>
    by_cases hhex : ident.hexValue = keyId.hexValue
    · simp [lookupMove, hhex, LookupPhase.rank]
    · simp only [lookupMove, hhex, if_false, LookupPhase.rank]
      omega
  | hit | missed | ended => simp [lookupMove, LookupPhase.rank]

end Step

/-! ## Runs -/

section Runs

variable {ι : Type*} [DecidableEq ι]

/-- A pool of calls, each of which looks for an identifier. Nothing else touches the cache. -/
abbrev LookupStep (kc : Keychain env) (keyIds : ι → Identifier) :
    Pool ι (Dictionary String UInt32) (LookupPhase env.secp) → Option ι →
      Pool ι (Dictionary String UInt32) (LookupPhase env.secp) → Prop :=
  Pool.Step (Pool.Moves (fun i => kc.lookupMove (keyIds i)) fun _ _ => True) fun _ _ => False

/-- Calls that have not begun, over an empty cache. -/
def lookupStart : Pool ι (Dictionary String UInt32) (LookupPhase env.secp) :=
  ⟨Dictionary.empty, fun _ => .start⟩

/-- In every run the cache is filled in order, and every call knows what it has to know. -/
theorem knows_of_run {kc : Keychain env} {keyIds : ι → Identifier}
    {p : Pool ι (Dictionary String UInt32) (LookupPhase env.secp)} {history : List (Option ι)}
    (h : Run (LookupStep kc keyIds) lookupStart history p) :
    Filled kc p.shared ∧ ∀ i, Knows kc (keyIds i) p.shared (p.locals i) := by
  refine Pool.rely_guarantee (I := Filled kc) (L := fun i => Knows kc (keyIds i)) (G := Grows)
    (fun i p l s hfilled hknows hown => ?_) (fun _ _ _ h => h.elim)
    (fun i _ _ _ hgrows hknows => knows_of_grows hgrows hknows) h (fun _ _ h => nomatch h)
    fun _ => trivial
  have hmove : kc.lookupMove (keyIds i) (p.locals i) p.shared = (l, s) := hown.2
  have hkept := kept_move hfilled hknows
  rw [hmove] at hkept
  exact ⟨hkept.filled, hkept.knows, hkept.grows⟩

theorem smallestIndex_of_firstAt {kc : Keychain env} {hex : String} {m : ℕ}
    {child : ExtendedKey env.secp} (hm : m ≤ maxDerivations)
    (h : FirstAt kc.secp kc.extkey hex 1 m child) : kc.SmallestIndex hex (UInt32.ofNat m) := by
  obtain ⟨hone, ⟨ident, hd, hhex⟩, hall⟩ := h
  have htoNat : (UInt32.ofNat m).toNat = m := toNat_ofNat_of_le hm
  refine ⟨by rw [htoNat]; exact ⟨hone, hm⟩, ⟨ident, deriveKeyId_eq_ok.mpr ⟨child, hd⟩, hhex⟩,
    fun j id hj hid hjhex => ?_⟩
  rw [UInt32.le_iff_toNat_le, htoNat]
  by_contra hlt
  obtain ⟨child', ident', hd', hne⟩ := hall j.toNat hj (Nat.lt_of_not_le hlt)
  rw [UInt32.ofNat_toNat] at hd'
  obtain rfl := Except.ok.inj (hid.symm.trans (deriveKeyId_eq_ok.mpr ⟨child', hd'⟩))
  exact hne hjhex

/-- In every run of calls that share a cache, each entry is the smallest index of its identifier,
each call that ended has the result it has with an empty cache, and a call has ended after forty
thousand and three steps of its own. -/
theorem cache_transparent (kc : Keychain env) (keyIds : ι → Identifier)
    {p : Pool ι (Dictionary String UInt32) (LookupPhase env.secp)} {history : List (Option ι)}
    (h : Run (LookupStep kc keyIds) lookupStart history p) :
    (∀ hex n, p.shared.lookup hex = some n → kc.SmallestIndex hex n) ∧
      (∀ i result, p.locals i = .ended result → result = kc.emptied.derivedKey (keyIds i)) ∧
      ∀ i, 40003 ≤ history.count (some i) → ∃ result, p.locals i = .ended result := by
  obtain ⟨hfilled, hknows⟩ := knows_of_run h
  refine ⟨fun hex n hn => ?_, fun i result hended => ?_, fun i hcount => ?_⟩
  · obtain ⟨m, child, rfl, hm, hfirst⟩ := hfilled hex n hn
    exact smallestIndex_of_firstAt hm hfirst
  · have hknown := hknows i
    rw [hended] at hknown
    exact hknown
  · have hrank := Pool.rank_of_run LookupPhase.rank (fun j r l s hown => ?_) h i
    · have hstart : ((lookupStart : Pool ι _ (LookupPhase env.secp)).locals i).rank = 40003 := rfl
      rw [hstart] at hrank
      exact exists_ended_of_rank (by omega)
    · have hmove : kc.lookupMove (keyIds j) (r.locals j) r.shared = (l, s) := hown.2
      have hfall := rank_move kc (keyIds j) (r.locals j) r.shared
      rwa [hmove] at hfall

end Runs

/-! ### Over pairs -/

/-- The identifiers of the first two children. -/
def pairKeyId (first : Bool) : Identifier := ⟨ofNat 10 (if first then 5 else 6)⟩

/-- The order in which two calls take their steps. -/
def pairTurns : List Bool :=
  [true, false, true, false, true, false, false, true, true, false, false, true, false, false, false,
    false, false]

/-- Two calls after these steps. -/
def pairLookups (turns : List Bool) :
    Pool Bool (Dictionary String UInt32) (LookupPhase Pairs.env.secp) :=
  Pool.schedule (fun b => pairKeychain.lookupMove (pairKeyId b)) lookupStart turns

theorem run_pairLookups :
    Run (LookupStep pairKeychain pairKeyId) lookupStart (pairTurns.map some)
      (pairLookups pairTurns) := by
  have hallowed : Pool.Allowed (fun b => pairKeychain.lookupMove (pairKeyId b)) (fun _ _ => True)
      lookupStart pairTurns := by decide +kernel
  exact Pool.run_schedule hallowed

theorem cache_transparent_pairs :
    (∀ hex n, (pairLookups pairTurns).shared.lookup hex = some n →
        pairKeychain.SmallestIndex hex n) ∧
      (∀ i result, (pairLookups pairTurns).locals i = .ended result →
        result = pairKeychain.emptied.derivedKey (pairKeyId i)) ∧
      ∀ i, 40003 ≤ (pairTurns.map some).count (some i) →
        ∃ result, (pairLookups pairTurns).locals i = .ended result :=
  cache_transparent pairKeychain pairKeyId run_pairLookups

/-- Both calls have ended, and their two children are in the cache. -/
example : ((pairLookups pairTurns).locals true).rank = 0 ∧
    ((pairLookups pairTurns).locals false).rank = 0 ∧
    (pairLookups pairTurns).shared.entries.map Prod.snd = [1, 2] := by
  decide +kernel

end Keychain

end GrinDotnet
