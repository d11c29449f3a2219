import GrinDotnet.Keychain.ExtendedKey

/-!
# The keychain

Keys are looked up by identifier: in the overrides, then in the derivation cache, then by deriving
the first 10000 children until one has the identifier. Every derivation on the way fills the cache.

`derivedKeyStep` is one lookup with the cache it leaves behind, `derivedKey` its answer.
`derivedKey_derivedKeyStep` shows that no lookup changes the answer of another one, so the rest of
the model asks `derivedKey` of a fixed keychain.
-/

namespace GrinDotnet

open BigEndian Outcome

/-- The number of children `Derived_key` tries. -/
def maxDerivations : ℕ := 10000

/-- A cache entry maps an identifier to an index below the limit that derives it. -/
def CacheEntry (env : Env) (secp : Secp256K1) (extkey : ExtendedKey env.secp) (hex : String)
    (i : UInt32) : Prop :=
  1 ≤ i.toNat ∧ i.toNat ≤ maxDerivations ∧
    ∃ child ident, extkey.deriveIdent env secp i = .ok (child, ident) ∧ ident.hexValue = hex

/-- `BlindingFactor`: a secret key for the blinding sum. -/
structure BlindingFactor (N : Native) where
  key : SecretKey N
deriving DecidableEq

/-- `BlindSum`: the keys of a blinding sum, by identifier and by value. -/
structure BlindSum (N : Native) where
  positiveKeyIds : List Identifier
  negativeKeyIds : List Identifier
  positiveBlindingFactors : List (BlindingFactor N)
  negativeBlindingFactors : List (BlindingFactor N)
deriving DecidableEq

namespace BlindSum

variable {N : Native}

/-- `BlindSum.New`. -/
def new : BlindSum N := ⟨[], [], [], []⟩

/-- `BlindSum.add_key_id`. -/
def addKeyId (self : BlindSum N) (keyId : Identifier) : BlindSum N :=
  { self with positiveKeyIds := self.positiveKeyIds ++ [keyId] }

/-- `BlindSum.sub_key_id`. -/
def subKeyId (self : BlindSum N) (keyId : Identifier) : BlindSum N :=
  { self with negativeKeyIds := self.negativeKeyIds ++ [keyId] }

/-- `BlindSum.add_blinding_factor`. -/
def addBlindingFactor (self : BlindSum N) (blind : BlindingFactor N) : BlindSum N :=
  { self with positiveBlindingFactors := self.positiveBlindingFactors ++ [blind] }

end BlindSum

/-- `Keychain`. Its constructor is private: the context can commit, and the cache holds only what
lookups have put there. -/
structure Keychain (env : Env) where
  secp : Secp256K1
  extkey : ExtendedKey env.secp
  keyOverrides : Dictionary String (SecretKey env.secp)
  keyDerivationCache : Dictionary String UInt32
  caps_commit : secp.caps = .commit
  cache_entry : ∀ hex i, keyDerivationCache.lookup hex = some i → CacheEntry env secp extkey hex i

namespace Keychain

variable {env : Env}

/-- `Keychain.Root_key_id`. -/
def rootKeyId (kc : Keychain env) : Identifier := kc.extkey.rootKeyId

/-- `Keychain.From_seed`. -/
def fromSeed (env : Env) (seed : Bytes) : Except Exn (Keychain env) := do
  let extkey ← ExtendedKey.fromSeed env (Secp256K1.withCaps .commit) seed
  return {
    secp := Secp256K1.withCaps .commit
    extkey
    keyOverrides := Dictionary.empty
    keyDerivationCache := Dictionary.empty
    caps_commit := Secp256K1.caps_withCaps .commit
    cache_entry := fun _ _ h => nomatch h }

/-- `Keychain.Derive_key_id`. -/
def deriveKeyId (kc : Keychain env) (derivation : UInt32) : Except Exn Identifier := do
  let extkeyNew ← kc.extkey.derive env kc.secp derivation
  extkeyNew.identifier env kc.secp

/-- `Keychain.derived_key_from_index`. -/
def derivedKeyFromIndex (kc : Keychain env) (derivation : UInt32) :
    Except Exn (SecretKey env.secp) := do
  let extkey ← kc.extkey.derive env kc.secp derivation
  return extkey.key

/-- Add an identifier to the cache unless it is there. -/
def tryAdd (cache : Dictionary String UInt32) (hex : String) (n : UInt32) :
    Dictionary String UInt32 :=
  (cache.add hex n).getD cache

/-- The scan of `Derived_key` from an index on: the key of the first child with the identifier, and
the cache with every child that was derived. -/
def scanKeys (secp : Secp256K1) (extkey : ExtendedKey env.secp) (target : String) :
    ℕ → ℕ → Dictionary String UInt32 → Except Exn (SecretKey env.secp) × Dictionary String UInt32
  | 0, _, cache =>
    (.error (.exception ("KeyDerivation - cannot find extkey for " ++ target)), cache)
  | fuel + 1, i, cache =>
    match extkey.deriveIdent env secp (UInt32.ofNat i) with
    | .error e => (.error e, cache)
    | .ok (child, ident) =>
      if ident.hexValue = target then (.ok child.key, tryAdd cache ident.hexValue child.nChild)
      -- a child that is not the one asked for is cached as well
      else scanKeys secp extkey target fuel (i + 1) (tryAdd cache ident.hexValue child.nChild)

/-! ## The scan -/

namespace KeychainLemmas

theorem lookup_tryAdd (cache : Dictionary String UInt32) (hex : String) (n : UInt32)
    (h : String) :
    (tryAdd cache hex n).lookup h =
      if h = hex ∧ cache.lookup hex = none then some n else cache.lookup h := by
  unfold tryAdd
  cases ha : cache.add hex n with
  | none =>
    obtain ⟨w, hw⟩ := Dictionary.add_eq_none_iff.mp ha
    simp [hw]
  | some cache' =>
    have hnone := (Dictionary.add_eq_some_iff.mp ha).1
    rw [Option.getD_some, Dictionary.lookup_add ha]
    simp [hnone]

/-- Adding to the cache leaves the entries that are there. -/
theorem lookup_tryAdd_of_some {cache : Dictionary String UInt32} {hex : String} {n : UInt32}
    (h : cache.lookup hex = some n) (hex' : String) (n' : UInt32) :
    (tryAdd cache hex' n').lookup hex = some n := by
  rw [lookup_tryAdd, if_neg]
  · exact h
  · rintro ⟨rfl, hnone⟩
    rw [h] at hnone
    cases hnone

/-- The indices in reach of the scan fit a derivation. -/
theorem toNat_ofNat_of_le {m : ℕ} (h : m ≤ maxDerivations) : (UInt32.ofNat m).toNat = m :=
  UInt32.toNat_ofNat_of_lt' (Nat.lt_of_le_of_lt h (by decide))

variable {secp : Secp256K1} {extkey : ExtendedKey env.secp}

/-- The index `m` is the first one from `i` on whose child has the identifier, and all children
before it exist. -/
def FirstAt (secp : Secp256K1) (extkey : ExtendedKey env.secp) (hex : String) (i m : ℕ)
    (child : ExtendedKey env.secp) : Prop :=
  i ≤ m ∧ (∃ ident, extkey.deriveIdent env secp (UInt32.ofNat m) = .ok (child, ident) ∧
    ident.hexValue = hex) ∧
  ∀ j, i ≤ j → j < m → ∃ child' ident',
    extkey.deriveIdent env secp (UInt32.ofNat j) = .ok (child', ident') ∧ ident'.hexValue ≠ hex

theorem firstAt_of_succ {hex : String} {i m : ℕ} {child child' : ExtendedKey env.secp}
    {ident' : Identifier} (hd : extkey.deriveIdent env secp (UInt32.ofNat i) = .ok (child', ident'))
    (hne : ident'.hexValue ≠ hex) (h : FirstAt secp extkey hex (i + 1) m child) :
    FirstAt secp extkey hex i m child := by
  obtain ⟨hle, hm, hall⟩ := h
  refine ⟨by omega, hm, fun j hij hjm => ?_⟩
  rcases Nat.lt_or_eq_of_le hij with hlt | rfl
  · exact hall j hlt hjm
  · exact ⟨child', ident', hd, hne⟩

/-- The answer of the scan does not depend on the cache. -/
theorem scanKeys_fst_eq (target : String) (fuel i : ℕ) (cache cache' : Dictionary String UInt32) :
    (scanKeys secp extkey target fuel i cache).1 = (scanKeys secp extkey target fuel i cache').1 := by
  induction fuel generalizing i cache cache' with
  | zero => rfl
  | succ fuel ih =>
    unfold scanKeys
    cases extkey.deriveIdent env secp (UInt32.ofNat i) with
    | error e => rfl
    | ok p =>
      obtain ⟨child, ident⟩ := p
      by_cases hhex : ident.hexValue = target
      · simp [hhex]
      · simp only [hhex, if_false]
        exact ih _ _ _

/-- The scan passes by children with other identifiers. -/
theorem scanKeys_skip {target : String} {k i : ℕ} (fuel : ℕ)
    (h : ∀ j, i ≤ j → j < i + k → ∃ child ident,
      extkey.deriveIdent env secp (UInt32.ofNat j) = .ok (child, ident) ∧ ident.hexValue ≠ target)
    (cache cache' : Dictionary String UInt32) :
    (scanKeys secp extkey target (k + fuel) i cache).1
      = (scanKeys secp extkey target fuel (i + k) cache').1 := by
  induction k generalizing i cache with
  | zero =>
    rw [Nat.zero_add]
    exact scanKeys_fst_eq _ _ _ _ _
  | succ k ih =>
    obtain ⟨child, ident, hd, hne⟩ := h i le_rfl (by omega)
    have hstep : (scanKeys secp extkey target (k + fuel + 1) i cache).1
        = (scanKeys secp extkey target (k + fuel) (i + 1)
            (tryAdd cache ident.hexValue child.nChild)).1 := by
      simp only [scanKeys, hd, hne, if_false]
    rw [show k + 1 + fuel = k + fuel + 1 by omega, show i + (k + 1) = i + 1 + k by omega, hstep]
    exact ih (fun j hij hj => h j (by omega) (by omega)) _

/-- The scan finds the first child with the identifier, whatever the cache holds. -/
theorem scanKeys_of_firstAt {target : String} {fuel i m : ℕ} {child : ExtendedKey env.secp}
    (h : FirstAt secp extkey target i m child) (hm : m < i + fuel)
    (cache : Dictionary String UInt32) :
    (scanKeys secp extkey target fuel i cache).1 = .ok child.key := by
  obtain ⟨hle, ⟨ident, hd, hhex⟩, hall⟩ := h
  obtain ⟨k, rfl⟩ := Nat.exists_eq_add_of_le hle
  obtain ⟨rest, hrest⟩ := Nat.exists_eq_add_of_lt (Nat.lt_of_add_lt_add_left hm)
  rw [hrest, Nat.add_assoc, scanKeys_skip (rest + 1) hall cache cache]
  simp only [scanKeys, hd, hhex, if_true]

/-- A scan that meets other identifiers only raises at its end. -/
theorem scanKeys_of_forall_ne {target : String} {fuel i : ℕ}
    (h : ∀ j, i ≤ j → j < i + fuel → ∃ child ident,
      extkey.deriveIdent env secp (UInt32.ofNat j) = .ok (child, ident) ∧ ident.hexValue ≠ target)
    (cache : Dictionary String UInt32) :
    (scanKeys secp extkey target fuel i cache).1
      = .error (.exception ("KeyDerivation - cannot find extkey for " ++ target)) :=
  scanKeys_skip 0 h cache cache

/-- The scan answers the key of the first child with the identifier, if that child is within reach. -/
theorem scanKeys_eq_ok_iff {target : String} {fuel i : ℕ} {cache : Dictionary String UInt32}
    {sk : SecretKey env.secp} :
    (scanKeys secp extkey target fuel i cache).1 = .ok sk ↔
      ∃ m child, m < i + fuel ∧ FirstAt secp extkey target i m child ∧ child.key = sk := by
  constructor
  · intro h
    induction fuel generalizing i cache with
    | zero => cases h
    | succ fuel ih =>
      unfold scanKeys at h
      cases hd : extkey.deriveIdent env secp (UInt32.ofNat i) with
      | error e =>
        rw [hd] at h
        cases h
      | ok p =>
        obtain ⟨child, ident⟩ := p
        rw [hd] at h
        by_cases hhex : ident.hexValue = target
        · simp only [hhex, if_true] at h
          exact ⟨i, child, by omega, ⟨le_rfl, ⟨ident, hd, hhex⟩, fun j hij hji => by omega⟩,
            Except.ok.inj h⟩
        · simp only [hhex, if_false] at h
          obtain ⟨m, child', hm, hfirst, hkey⟩ := ih h
          exact ⟨m, child', by omega, firstAt_of_succ hd hhex hfirst, hkey⟩
  · rintro ⟨m, child, hm, hfirst, rfl⟩
    exact scanKeys_of_firstAt hfirst hm cache

/-- An entry found after the scan was there before, or its child is the first with that
identifier. -/
theorem lookup_scanKeys {target hex : String} {fuel i : ℕ} {cache : Dictionary String UInt32}
    {n : UInt32} (h : (scanKeys secp extkey target fuel i cache).2.lookup hex = some n) :
    cache.lookup hex = some n ∨
      (cache.lookup hex = none ∧ ∃ m child, n = UInt32.ofNat m ∧ m < i + fuel ∧
        FirstAt secp extkey hex i m child) := by
  induction fuel generalizing i cache with
  | zero => exact .inl h
  | succ fuel ih =>
    unfold scanKeys at h
    cases hd : extkey.deriveIdent env secp (UInt32.ofNat i) with
    | error e =>
      rw [hd] at h
      exact .inl h
    | ok p =>
      obtain ⟨child, ident⟩ := p
      have hn : child.nChild = UInt32.ofNat i :=
        ExtendedKey.nChild_of_derive (ExtendedKey.deriveIdent_eq_ok.mp hd).1
      have hhere : hex = ident.hexValue → FirstAt secp extkey hex i i child := fun he =>
        ⟨le_rfl, ⟨ident, hd, he.symm⟩, fun j hij hji => absurd hij (by omega)⟩
      rw [hd] at h
      simp only at h
      split at h
      · -- the scan ends here: only this child's entry is new
        rw [lookup_tryAdd] at h
        split at h
        · next hnew =>
          refine .inr ⟨hnew.1 ▸ hnew.2, i, child, ?_, by omega, hhere hnew.1⟩
          rw [← hn]
          exact (Option.some.inj h).symm
        · exact .inl h
      · rcases ih h with hold | ⟨hnone, m, child', hm, hlt, hfirst⟩
        · rw [lookup_tryAdd] at hold
          split at hold
          · next hnew =>
            refine .inr ⟨hnew.1 ▸ hnew.2, i, child, ?_, by omega, hhere hnew.1⟩
            rw [← hn]
            exact (Option.some.inj hold).symm
          · exact .inl hold
        · rw [lookup_tryAdd] at hnone
          split at hnone
          · cases hnone
          · next hnew =>
            have hne : ident.hexValue ≠ hex := fun he => hnew ⟨he.symm, he ▸ hnone⟩
            exact .inr ⟨hnone, m, child', hm, by omega, firstAt_of_succ hd hne hfirst⟩

/-- The scan only adds to the cache. -/
theorem lookup_scanKeys_of_some {target hex : String} {fuel i : ℕ}
    {cache : Dictionary String UInt32} {n : UInt32} (h : cache.lookup hex = some n) :
    (scanKeys secp extkey target fuel i cache).2.lookup hex = some n := by
  induction fuel generalizing i cache with
  | zero => exact h
  | succ fuel ih =>
    unfold scanKeys
    cases extkey.deriveIdent env secp (UInt32.ofNat i) with
    | error e => exact h
    | ok p =>
      simp only
      split
      · exact lookup_tryAdd_of_some h _ _
      · exact ih (lookup_tryAdd_of_some h _ _)

theorem cacheEntry_scanKeys {target : String} {cache : Dictionary String UInt32}
    (hok : ∀ hex i, cache.lookup hex = some i → CacheEntry env secp extkey hex i) (hex : String)
    (n : UInt32)
    (h : (scanKeys secp extkey target maxDerivations 1 cache).2.lookup hex = some n) :
    CacheEntry env secp extkey hex n := by
  rcases lookup_scanKeys h with hold | ⟨-, m, child, rfl, hlt, hle, ⟨ident, hd, hhex⟩, -⟩
  · exact hok hex n hold
  · have hm : m ≤ maxDerivations := Nat.lt_one_add_iff.mp hlt
    have htoNat : (UInt32.ofNat m).toNat = m := toNat_ofNat_of_le hm
    exact ⟨by rwa [htoNat], by rwa [htoNat], child, ident, hd, hhex⟩

end KeychainLemmas

open KeychainLemmas

/-! ## Lookup -/

/-- `Keychain.Derived_key`: the key of an identifier, and the keychain with the cache filled on the
way. -/
def derivedKeyStep (kc : Keychain env) (keyId : Identifier) :
    Except Exn (SecretKey env.secp) × Keychain env :=
  match kc.keyOverrides.lookup keyId.hexValue with
  | some sk => (.ok sk, kc)
  | none =>
    match kc.keyDerivationCache.lookup keyId.hexValue with
    | some derivation => (kc.derivedKeyFromIndex derivation, kc)
    | none =>
      ((scanKeys kc.secp kc.extkey keyId.hexValue maxDerivations 1 kc.keyDerivationCache).1,
        { kc with
          keyDerivationCache :=
            (scanKeys kc.secp kc.extkey keyId.hexValue maxDerivations 1 kc.keyDerivationCache).2
          cache_entry := cacheEntry_scanKeys kc.cache_entry })

/-- The key `Keychain.Derived_key` answers. -/
def derivedKey (kc : Keychain env) (keyId : Identifier) : Except Exn (SecretKey env.secp) :=
  (kc.derivedKeyStep keyId).1

theorem derivedKey_eq (kc : Keychain env) (keyId : Identifier) :
    kc.derivedKey keyId =
      match kc.keyOverrides.lookup keyId.hexValue with
      | some sk => .ok sk
      | none =>
        match kc.keyDerivationCache.lookup keyId.hexValue with
        | some derivation => kc.derivedKeyFromIndex derivation
        | none =>
          (scanKeys kc.secp kc.extkey keyId.hexValue maxDerivations 1 kc.keyDerivationCache).1 := by
  unfold derivedKey derivedKeyStep
  cases kc.keyOverrides.lookup keyId.hexValue with
  | some sk => rfl
  | none => cases kc.keyDerivationCache.lookup keyId.hexValue <;> rfl

/-- `Keychain.Commit`. -/
def commit (kc : Keychain env) (amount : UInt64) (keyId : Identifier) : Except Exn Commitment := do
  let skey ← kc.derivedKey keyId
  kc.secp.commit amount skey

/-- `Keychain.commit_with_key_index`. -/
def commitWithKeyIndex (kc : Keychain env) (amount : UInt64) (derivation : UInt32) :
    Except Exn Commitment := do
  let skey ← kc.derivedKeyFromIndex derivation
  kc.secp.commit amount skey

/-- `Keychain.Switch_commit`. -/
def switchCommit (kc : Keychain env) (keyId : Identifier) : Except Exn Commitment := do
  let skey ← kc.derivedKey keyId
  kc.secp.switchCommit skey

/-- `Keychain.Range_proof`. -/
def rangeProof (kc : Keychain env) (amount : UInt64) (keyId : Identifier) (commit : Commitment)
    (msg : Bytes) : Except Exn RangeProof := do
  let skey ← kc.derivedKey keyId
  return Secp256K1.rangeProof 0 amount skey commit msg

/-- `Keychain.Sign`. -/
def sign (kc : Keychain env) (msg : Message) (keyId : Identifier) : Except Exn Signiture := do
  let skey ← kc.derivedKey keyId
  kc.secp.sign msg skey

/-- `Keychain.Blind_sum`. -/
def blindSum (kc : Keychain env) (sum : BlindSum env.secp) :
    Except Exn (BlindingFactor env.secp) := do
  let posKeys ← sum.positiveKeyIds.mapM kc.derivedKey
  let negKeys ← sum.negativeKeyIds.mapM kc.derivedKey
  let blinding ← Secp256K1.blindSum (posKeys ++ sum.positiveBlindingFactors.map (·.key))
    (negKeys ++ sum.negativeBlindingFactors.map (·.key))
  return ⟨blinding⟩

/-- `Keychain.Sign_with_blinding`. -/
def signWithBlinding (kc : Keychain env) (msg : Message) (blinding : BlindingFactor env.secp) :
    Except Exn Signiture :=
  kc.secp.sign msg blinding.key

/-! ## What lookups answer -/

/-- The children the scan can reach all exist: no hash of theirs falls outside the scalars. -/
def Derivable (kc : Keychain env) : Prop :=
  ∀ i : UInt32, 1 ≤ i.toNat → i.toNat ≤ maxDerivations →
    ∃ child ident, kc.extkey.deriveIdent env kc.secp i = .ok (child, ident)

theorem deriveKeyId_eq_ok {kc : Keychain env} {i : UInt32} {id : Identifier} :
    kc.deriveKeyId i = .ok id ↔ ∃ child, kc.extkey.deriveIdent env kc.secp i = .ok (child, id) := by
  simp only [ExtendedKey.deriveIdent_eq_ok]
  simp only [deriveKeyId, bind, Except.bind]
  cases kc.extkey.derive env kc.secp i with
  | error e => simp
  | ok child => simp

theorem derivedKeyFromIndex_of_deriveIdent {kc : Keychain env} {i : UInt32}
    {child : ExtendedKey env.secp} {id : Identifier}
    (h : kc.extkey.deriveIdent env kc.secp i = .ok (child, id)) :
    kc.derivedKeyFromIndex i = .ok child.key := by
  simp [derivedKeyFromIndex, (ExtendedKey.deriveIdent_eq_ok.mp h).1, bind, Except.bind, pure,
    Except.pure]

/-- The keys of a reachable index are found: overridden, cached, or by the scan. -/
theorem derivedKey_ok {kc : Keychain env} (hder : kc.Derivable) {i : UInt32} (h1 : 1 ≤ i.toNat)
    (hi : i.toNat ≤ maxDerivations) {id : Identifier} (hid : kc.deriveKeyId i = .ok id) :
    ∃ sk, kc.derivedKey id = .ok sk := by
  unfold derivedKey derivedKeyStep
  cases kc.keyOverrides.lookup id.hexValue with
  | some sk => exact ⟨sk, rfl⟩
  | none =>
    cases hc : kc.keyDerivationCache.lookup id.hexValue with
    | some d =>
      obtain ⟨-, -, child, ident, hd, -⟩ := kc.cache_entry _ _ hc
      exact ⟨child.key, derivedKeyFromIndex_of_deriveIdent hd⟩
    | none =>
      -- the scan stops at the latest at the index itself
      obtain ⟨child, hd⟩ := deriveKeyId_eq_ok.mp hid
      have hex : ∃ m, 1 ≤ m ∧ m ≤ maxDerivations ∧ ∃ child ident,
          kc.extkey.deriveIdent env kc.secp (UInt32.ofNat m) = .ok (child, ident) ∧
          ident.hexValue = id.hexValue := by
        refine ⟨i.toNat, h1, hi, child, id, ?_, rfl⟩
        rw [UInt32.ofNat_toNat]
        exact hd
      classical
      obtain ⟨hm1, hmax, child', ident', hd', hhex⟩ := Nat.find_spec hex
      refine ⟨child'.key, scanKeys_of_firstAt (m := Nat.find hex)
        ⟨hm1, ⟨ident', hd', hhex⟩, fun j hj hjm => ?_⟩ (by omega) _⟩
      have hjmax : j ≤ maxDerivations := le_trans hjm.le hmax
      have htoNat : (UInt32.ofNat j).toNat = j := toNat_ofNat_of_le hjmax
      obtain ⟨c, d, hcd⟩ := hder (UInt32.ofNat j) (by rwa [htoNat]) (by rwa [htoNat])
      exact ⟨c, d, hcd, fun he => Nat.find_min hex hjm ⟨hj, hjmax, c, d, hcd, he⟩⟩

/-- When distinct indices have distinct identifiers and none is overridden, every lookup that
answers gives the key of the identifier's index. -/
theorem derivedKey_eq_fromIndex {kc : Keychain env} {i : UInt32} {id : Identifier}
    {sk : SecretKey env.secp} (hid : kc.deriveKeyId i = .ok id)
    (hover : kc.keyOverrides.lookup id.hexValue = none)
    (hinj : ∀ j, kc.deriveKeyId j = .ok id → j = i) (h : kc.derivedKey id = .ok sk) :
    kc.derivedKeyFromIndex i = .ok sk := by
  have hfrom : ∀ j child ident, kc.extkey.deriveIdent env kc.secp j = .ok (child, ident) →
      ident.hexValue = id.hexValue → kc.derivedKeyFromIndex i = .ok child.key := by
    intro j child ident hd hhex
    obtain rfl := Identifier.hexValue_injective hhex
    obtain rfl := hinj j (deriveKeyId_eq_ok.mpr ⟨child, hd⟩)
    exact derivedKeyFromIndex_of_deriveIdent hd
  have hscan : ∀ fuel n cache, (scanKeys kc.secp kc.extkey id.hexValue fuel n cache).1 = .ok sk →
      kc.derivedKeyFromIndex i = .ok sk := by
    intro fuel n cache hs
    obtain ⟨m, child, -, hfirst, rfl⟩ := scanKeys_eq_ok_iff.mp hs
    obtain ⟨ident, hd, hhex⟩ := hfirst.2.1
    exact hfrom _ child ident hd hhex
  unfold derivedKey derivedKeyStep at h
  rw [hover] at h
  simp only at h
  cases hc : kc.keyDerivationCache.lookup id.hexValue with
  | some d =>
    obtain ⟨-, -, child, ident, hd, hhex⟩ := kc.cache_entry _ _ hc
    rw [hc] at h
    simp only at h
    rw [derivedKeyFromIndex_of_deriveIdent hd] at h
    rw [hfrom d child ident hd hhex]
    exact h
  | none =>
    rw [hc] at h
    exact hscan _ _ _ h

/-- A lookup changes nothing but the cache. -/
theorem fixed_derivedKeyStep (kc : Keychain env) (id : Identifier) :
    (kc.derivedKeyStep id).2.secp = kc.secp ∧ (kc.derivedKeyStep id).2.extkey = kc.extkey ∧
      (kc.derivedKeyStep id).2.keyOverrides = kc.keyOverrides := by
  unfold derivedKeyStep
  cases kc.keyOverrides.lookup id.hexValue with
  | some sk => exact ⟨rfl, rfl, rfl⟩
  | none => cases kc.keyDerivationCache.lookup id.hexValue <;> exact ⟨rfl, rfl, rfl⟩

/-- No lookup changes the answer of another one. -/
theorem derivedKey_derivedKeyStep (kc : Keychain env) (other id : Identifier) :
    (kc.derivedKeyStep other).2.derivedKey id = kc.derivedKey id := by
  unfold derivedKeyStep
  cases kc.keyOverrides.lookup other.hexValue with
  | some sk => rfl
  | none =>
    cases hco : kc.keyDerivationCache.lookup other.hexValue with
    | some d => rfl
    | none =>
      simp only [derivedKey_eq]
      cases kc.keyOverrides.lookup id.hexValue with
      | some sk => rfl
      | none =>
        cases hnew : (scanKeys kc.secp kc.extkey other.hexValue maxDerivations 1
            kc.keyDerivationCache).2.lookup id.hexValue with
        | some d =>
          rcases lookup_scanKeys hnew with hold | ⟨hnone, m, child, rfl, hlt, hfirst⟩
          · rw [hold]
            rfl
          · -- a new entry is the first child with the identifier, which is what a scan would find
            obtain ⟨ident, hd, -⟩ := hfirst.2.1
            rw [hnone]
            simp only
            rw [scanKeys_of_firstAt hfirst hlt]
            exact derivedKeyFromIndex_of_deriveIdent hd
        | none =>
          have hold : kc.keyDerivationCache.lookup id.hexValue = none := by
            by_contra hne
            obtain ⟨d, hd⟩ := Option.ne_none_iff_exists'.mp hne
            rw [lookup_scanKeys_of_some hd] at hnew
            cases hnew
          rw [hold]
          exact scanKeys_fst_eq _ _ _ _ _

end Keychain

end GrinDotnet
