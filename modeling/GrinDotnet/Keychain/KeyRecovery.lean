import GrinDotnet.Keychain.PairKeychain

/-!
# Finding a key again

`Next_child` hands out indices without a bound, `Derived_key` tries ten thousand of them. A key that
was handed out by its index is found again by its identifier only below that limit.

Results:
1. `derivedKey_lookups`: earlier lookups do not matter.
2. `recovers_iff`: when distinct indices have distinct identifiers, the key of an index is found
   again exactly when it is overridden by itself, or not overridden and in reach of the scan.
-/

namespace GrinDotnet

open BigEndian Outcome

variable {env : Env}

namespace Keychain

open KeychainLemmas

/-- Lookups one after the other. -/
def lookups (kc : Keychain env) (ids : List Identifier) : Keychain env :=
  ids.foldl (fun kc id => (kc.derivedKeyStep id).2) kc

/-- The key of an index is found by its identifier. -/
def Recovers (kc : Keychain env) (n : UInt32) : Prop :=
  ∃ id sk, kc.deriveKeyId n = .ok id ∧ kc.derivedKey id = .ok sk ∧ kc.derivedKeyFromIndex n = .ok sk

/-- The scan gets to an index: it is not past the limit, and all children before it exist. -/
def InReach (kc : Keychain env) (n : UInt32) : Prop :=
  n.toNat ≤ maxDerivations ∧ ∀ m, 1 ≤ m → m < n.toNat →
    ∃ child ident, kc.extkey.deriveIdent env kc.secp (UInt32.ofNat m) = .ok (child, ident)

/-- What it takes to find the key of an index: the child exists, and it is overridden by its own key
or in reach of the scan. -/
def Recoverable (kc : Keychain env) (n : UInt32) : Prop :=
  ∃ child id, kc.extkey.deriveIdent env kc.secp n = .ok (child, id) ∧
    match kc.keyOverrides.lookup id.hexValue with
    | some sk => sk = child.key
    | none => kc.InReach n

/-- Distinct indices have distinct identifiers. -/
def Distinguishes (kc : Keychain env) : Prop :=
  ∀ i j id, kc.deriveKeyId i = .ok id → kc.deriveKeyId j = .ok id → i = j

theorem fixed_lookups (kc : Keychain env) (ids : List Identifier) :
    (kc.lookups ids).secp = kc.secp ∧ (kc.lookups ids).extkey = kc.extkey ∧
      (kc.lookups ids).keyOverrides = kc.keyOverrides := by
  induction ids generalizing kc with
  | nil => exact ⟨rfl, rfl, rfl⟩
  | cons id ids ih =>
    obtain ⟨hsecp, hextkey, hover⟩ := fixed_derivedKeyStep kc id
    obtain ⟨hsecp', hextkey', hover'⟩ := ih (kc.derivedKeyStep id).2
    exact ⟨hsecp'.trans hsecp, hextkey'.trans hextkey, hover'.trans hover⟩

/-- Earlier lookups do not matter for a later one. -/
theorem derivedKey_lookups (kc : Keychain env) (ids : List Identifier) (id : Identifier) :
    (kc.lookups ids).derivedKey id = kc.derivedKey id := by
  induction ids generalizing kc with
  | nil => rfl
  | cons other ids ih =>
    have hrest : ((kc.derivedKeyStep other).2.lookups ids).derivedKey id = kc.derivedKey id := by
      rw [ih, derivedKey_derivedKeyStep]
    exact hrest

theorem recovers_lookups_iff (kc : Keychain env) (ids : List Identifier) (n : UInt32) :
    (kc.lookups ids).Recovers n ↔ kc.Recovers n := by
  obtain ⟨hsecp, hextkey, -⟩ := kc.fixed_lookups ids
  unfold Recovers
  simp only [derivedKey_lookups, deriveKeyId, derivedKeyFromIndex, hsecp, hextkey]

/-- With distinct identifiers the scan can only stop at the index itself. -/
theorem firstAt_iff {kc : Keychain env} (hinj : kc.Distinguishes) {n : UInt32}
    (hn : 1 ≤ n.toNat) {child : ExtendedKey env.secp} {id : Identifier}
    (hd : kc.extkey.deriveIdent env kc.secp n = .ok (child, id)) {m : ℕ} (hm : m ≤ maxDerivations)
    {c : ExtendedKey env.secp} :
    FirstAt kc.secp kc.extkey id.hexValue 1 m c ↔ m = n.toNat ∧ c = child ∧ kc.InReach n := by
  have hid : kc.deriveKeyId n = .ok id := deriveKeyId_eq_ok.mpr ⟨child, hd⟩
  constructor
  · rintro ⟨hle, ⟨ident, hd', hhex⟩, hall⟩
    obtain rfl := Identifier.hexValue_injective hhex
    have hindex : UInt32.ofNat m = n := hinj _ _ ident (deriveKeyId_eq_ok.mpr ⟨c, hd'⟩) hid
    have hmn : m = n.toNat := by
      rw [← hindex, toNat_ofNat_of_le hm]
    rw [hindex, hd] at hd'
    obtain ⟨rfl, -⟩ := Prod.mk.inj (Except.ok.inj hd')
    refine ⟨hmn, rfl, hmn ▸ hm, fun j hj hjn => ?_⟩
    obtain ⟨child', ident', hj', -⟩ := hall j hj (hmn ▸ hjn)
    exact ⟨child', ident', hj'⟩
  · rintro ⟨rfl, rfl, -, hall⟩
    refine ⟨hn, ⟨id, by rwa [UInt32.ofNat_toNat], rfl⟩, fun j hj hjn => ?_⟩
    obtain ⟨child', ident', hj'⟩ := hall j hj hjn
    refine ⟨child', ident', hj', fun hhex => ?_⟩
    obtain rfl := Identifier.hexValue_injective hhex
    have hindex : UInt32.ofNat j = n := hinj _ _ ident' (deriveKeyId_eq_ok.mpr ⟨child', hj'⟩) hid
    have htoNat : (UInt32.ofNat j).toNat = j :=
      UInt32.toNat_ofNat_of_lt' (lt_trans hjn n.toNat_lt)
    exact hjn.ne (htoNat.symm.trans (congrArg UInt32.toNat hindex))

/-- A key is found again, whatever was looked up before, exactly when it is recoverable. -/
theorem recovers_iff (kc : Keychain env) (hcache : kc.keyDerivationCache = Dictionary.empty)
    (hinj : kc.Distinguishes) (ids : List Identifier) (n : UInt32) (hn : 1 ≤ n.toNat) :
    (kc.lookups ids).Recovers n ↔ kc.Recoverable n := by
  rw [recovers_lookups_iff]
  unfold Recovers Recoverable
  constructor
  · rintro ⟨id, sk, hid, hkey, hfrom⟩
    obtain ⟨child, hd⟩ := deriveKeyId_eq_ok.mp hid
    rw [derivedKeyFromIndex_of_deriveIdent hd] at hfrom
    obtain rfl := Except.ok.inj hfrom
    refine ⟨child, id, hd, ?_⟩
    rw [derivedKey_eq, hcache] at hkey
    cases hover : kc.keyOverrides.lookup id.hexValue with
    | some sk =>
      rw [hover] at hkey
      exact Except.ok.inj hkey
    | none =>
      rw [hover] at hkey
      obtain ⟨m, c, hm, hfirst, -⟩ := scanKeys_eq_ok_iff.mp hkey
      exact ((firstAt_iff hinj hn hd (Nat.lt_one_add_iff.mp hm)).mp hfirst).2.2
  · rintro ⟨child, id, hd, hcase⟩
    refine ⟨id, child.key, deriveKeyId_eq_ok.mpr ⟨child, hd⟩, ?_,
      derivedKeyFromIndex_of_deriveIdent hd⟩
    rw [derivedKey_eq, hcache]
    cases hover : kc.keyOverrides.lookup id.hexValue with
    | some sk =>
      rw [hover] at hcase
      exact congrArg Except.ok hcase
    | none =>
      rw [hover] at hcase
      have hfirst : FirstAt kc.secp kc.extkey id.hexValue 1 n.toNat child :=
        (firstAt_iff hinj hn hd hcase.1).mpr ⟨rfl, rfl, hcase⟩
      exact scanKeys_of_firstAt hfirst (Nat.lt_one_add_iff.mpr hcase.1) _

/-- Past the limit a lookup raises, when all children in reach exist. -/
theorem derivedKey_of_lt {kc : Keychain env} (hcache : kc.keyDerivationCache = Dictionary.empty)
    (hinj : kc.Distinguishes) (hder : kc.Derivable) {n : UInt32} (hn : maxDerivations < n.toNat)
    {id : Identifier} (hid : kc.deriveKeyId n = .ok id)
    (hover : kc.keyOverrides.lookup id.hexValue = none) :
    kc.derivedKey id
      = .error (.exception ("KeyDerivation - cannot find extkey for " ++ id.hexValue)) := by
  rw [derivedKey_eq, hover, hcache]
  refine scanKeys_of_forall_ne (fun j hj hjm => ?_) _
  have hjmax : j ≤ maxDerivations := Nat.lt_one_add_iff.mp hjm
  have htoNat : (UInt32.ofNat j).toNat = j := toNat_ofNat_of_le hjmax
  obtain ⟨child, ident, hd⟩ := hder (UInt32.ofNat j) (htoNat.symm ▸ hj) (htoNat.symm ▸ hjmax)
  refine ⟨child, ident, hd, fun hhex => ?_⟩
  obtain rfl := Identifier.hexValue_injective hhex
  have hindex : UInt32.ofNat j = n := hinj _ _ ident (deriveKeyId_eq_ok.mpr ⟨child, hd⟩) hid
  rw [← hindex, htoNat] at hn
  exact absurd hjmax (Nat.not_le_of_lt hn)

/-! ### Over pairs -/

theorem pairRoot_bounds : 0 < 3 ∧ 3 < 2 ^ 64 := by decide

/-- A keychain over pairs. -/
def pairKeychain : Keychain Pairs.env := Pairs.keychain 3 pairRoot_bounds

theorem distinguishes_pairKeychain : pairKeychain.Distinguishes := fun _ _ _ hi hj =>
  Pairs.deriveKeyId_injective pairRoot_bounds hi hj

/-- The condition for the fifth key, after a lookup that found nothing. -/
theorem recovers_iff_pairs :
    (pairKeychain.lookups [Identifier.zero]).Recovers 5 ↔ pairKeychain.Recoverable 5 :=
  recovers_iff pairKeychain rfl distinguishes_pairKeychain [Identifier.zero] 5 (by decide)

/-- The first key past the limit is handed out and not found again. -/
theorem recovers_not_past_limit :
    pairKeychain.Distinguishes ∧ ∃ id, pairKeychain.deriveKeyId 10001 = .ok id ∧
      pairKeychain.derivedKey id
        = .error (.exception ("KeyDerivation - cannot find extkey for " ++ id.hexValue)) ∧
      ¬ pairKeychain.Recovers 10001 := by
  obtain ⟨child, id, hd, -⟩ := Pairs.deriveIdent_eq pairRoot_bounds 10001
  have hid : pairKeychain.deriveKeyId 10001 = .ok id := deriveKeyId_eq_ok.mpr ⟨child, hd⟩
  have hraises := derivedKey_of_lt rfl distinguishes_pairKeychain (Pairs.derivable pairRoot_bounds)
    (by decide) hid rfl
  refine ⟨distinguishes_pairKeychain, id, hid, hraises, ?_⟩
  rintro ⟨id', sk, hid', hkey, -⟩
  obtain rfl := Except.ok.inj (hid.symm.trans hid')
  rw [hraises] at hkey
  cases hkey

end Keychain

end GrinDotnet
