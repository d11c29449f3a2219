import Mathlib.Data.List.Induction
import GrinDotnet.Keychain.PairKeychain

/-!
# Derivation paths

`Derive` again and again from a master key. Each key counts its steps in a byte, and what it calls
its root key is the key it was derived from.

Results:
1. `depth_of_derivePath`, `nChild_of_derivePath`, `rootKeyId_of_derivePath`: what a key at the end of
   a path says about it.
2. `metadata_iff`: the paths for which that is right.
-/

namespace GrinDotnet

open BigEndian Outcome

variable {env : Env}

namespace ExtendedKey

/-- The key at the end of a path of indices. -/
def derivePath (env : Env) (secp : Secp256K1) (self : ExtendedKey env.secp) (path : List UInt32) :
    Except Exn (ExtendedKey env.secp) :=
  path.foldlM (derive env secp) self

/-- A key says of its path how long it is, where it ends and with which master key it begins. -/
structure Metadata (secp : Secp256K1) (master : ExtendedKey env.secp) (path : List UInt32)
    (key : ExtendedKey env.secp) : Prop where
  depth : key.depth.toNat = path.length
  nChild : key.nChild = path.getLastD 0
  rootKeyId : master.identifier env secp = .ok key.rootKeyId

/-! ## Paths -/

section Path

variable {secp : Secp256K1} {seed : Bytes} {master key : ExtendedKey env.secp} {path : List UInt32}

/-- What `from_seed` says of the master key. -/
theorem metadata_of_fromSeed (h : fromSeed env secp seed = .ok master) :
    Metadata secp master [] master := by
  unfold fromSeed at h
  split at h
  · obtain ⟨secretKey, -, h⟩ := bind_eq_ok.mp h
    obtain ⟨rootKeyId, hroot, h⟩ := bind_eq_ok.mp h
    cases h
    -- the identifier does not depend on the field it goes into
    exact ⟨rfl, rfl, hroot⟩
  · cases h

theorem derivePath_snoc {n : UInt32} : derivePath env secp master (path ++ [n]) = .ok key ↔
    ∃ parent, derivePath env secp master path = .ok parent ∧ derive env secp parent n = .ok key :=
  foldlM_snoc_eq_ok

variable (hmaster : fromSeed env secp seed = .ok master)
  (hkey : derivePath env secp master path = .ok key)

include hmaster hkey

/-- The depth is counted in a byte. -/
theorem depth_of_derivePath : key.depth.toNat = path.length % 256 := by
  induction path using List.reverseRecOn generalizing key with
  | nil =>
    obtain rfl := Except.ok.inj hkey
    exact (metadata_of_fromSeed hmaster).depth
  | append_singleton path n ih =>
    obtain ⟨parent, hparent, hderive⟩ := derivePath_snoc.mp hkey
    have hlength : (path ++ [n]).length = path.length + 1 := by simp
    rw [(fields_of_derive hderive).1, UInt8.toNat_add, ih hparent, hlength]
    exact Nat.mod_add_mod _ _ _

theorem nChild_of_derivePath : key.nChild = path.getLastD 0 := by
  cases path using List.reverseRecOn with
  | nil =>
    obtain rfl := Except.ok.inj hkey
    exact (metadata_of_fromSeed hmaster).nChild
  | append_singleton path n =>
    obtain ⟨parent, -, hderive⟩ := derivePath_snoc.mp hkey
    rw [nChild_of_derive hderive]
    simp

/-- The root key of a key on a path is the key before it, and that of the master key is itself. -/
theorem rootKeyId_of_derivePath : ∃ parent, derivePath env secp master path.dropLast = .ok parent ∧
    parent.identifier env secp = .ok key.rootKeyId := by
  cases path using List.reverseRecOn with
  | nil =>
    obtain rfl := Except.ok.inj hkey
    exact ⟨master, rfl, (metadata_of_fromSeed hmaster).rootKeyId⟩
  | append_singleton path n =>
    obtain ⟨parent, hparent, hderive⟩ := derivePath_snoc.mp hkey
    rw [List.dropLast_concat]
    exact ⟨parent, hparent, (fields_of_derive hderive).2.2⟩

/-- A key is right about its path exactly when the byte has not wrapped and, from two steps on, the
last key before it has the identifier of the master key. -/
theorem metadata_iff : Metadata secp master path key ↔ path.length < 256 ∧
    (2 ≤ path.length → ∃ parent, derivePath env secp master path.dropLast = .ok parent ∧
      parent.identifier env secp = master.identifier env secp) := by
  obtain ⟨parent, hparent, hroot⟩ := rootKeyId_of_derivePath hmaster hkey
  have hdepth := depth_of_derivePath hmaster hkey
  constructor
  · intro h
    have hwrap := h.depth.symm.trans hdepth
    refine ⟨?_, fun _ => ⟨parent, hparent, hroot.trans h.rootKeyId.symm⟩⟩
    rw [hwrap]
    exact Nat.mod_lt _ (by decide)
  · rintro ⟨hshort, hsame⟩
    refine ⟨hdepth.trans (Nat.mod_eq_of_lt hshort), nChild_of_derivePath hmaster hkey, ?_⟩
    by_cases hlong : 2 ≤ path.length
    · obtain ⟨parent', hparent', hid⟩ := hsame hlong
      obtain rfl := Except.ok.inj (hparent.symm.trans hparent')
      exact hid.symm.trans hroot
    · -- a path of at most one step begins with the master key
      have hdrop : path.dropLast = [] := by
        rw [← List.length_eq_zero_iff, List.length_dropLast, Nat.sub_eq_zero_iff_le]
        exact Nat.le_of_lt_succ (not_le.mp hlong)
      rw [hdrop] at hparent
      obtain rfl := Except.ok.inj hparent
      exact hroot

end Path

/-! ### Over pairs -/

/-- The seed of sixteen zeroes. -/
def pairSeed : Bytes := List.replicate 16 0

/-- A context that can commit. -/
def pairSecp : Secp256K1 := Secp256K1.withCaps .commit

theorem metadata_iff_pairs : ∃ master key, fromSeed Pairs.env pairSecp pairSeed = .ok master ∧
    derivePath Pairs.env pairSecp master [7] = .ok key ∧ Metadata pairSecp master [7] key := by
  have hrun : (do
      let master ← fromSeed Pairs.env pairSecp pairSeed
      derivePath Pairs.env pairSecp master [7]).isOk = true := by decide +kernel
  obtain ⟨key, hrun⟩ := exists_of_isOk hrun
  obtain ⟨master, hmaster, hkey⟩ := bind_eq_ok.mp hrun
  refine ⟨master, key, hmaster, hkey, (metadata_iff hmaster hkey).mpr ⟨by decide, fun h => ?_⟩⟩
  exact absurd h (by decide)

/-- Behind the second step it is the first child that is called the root key. -/
theorem root_forgotten : ∃ master key, fromSeed Pairs.env pairSecp pairSeed = .ok master ∧
    derivePath Pairs.env pairSecp master [0, 0] = .ok key ∧ ¬ Metadata pairSecp master [0, 0] key := by
  have hrun : (do
      let master ← fromSeed Pairs.env pairSecp pairSeed
      let key ← derivePath Pairs.env pairSecp master [0, 0]
      let ident ← master.identifier Pairs.env pairSecp
      return decide (ident = key.rootKeyId)) = .ok false := by decide +kernel
  obtain ⟨master, hmaster, hrun⟩ := bind_eq_ok.mp hrun
  obtain ⟨key, hkey, hrun⟩ := bind_eq_ok.mp hrun
  obtain ⟨ident, hident, hrun⟩ := bind_eq_ok.mp hrun
  refine ⟨master, key, hmaster, hkey, fun h => ?_⟩
  have hne : ident ≠ key.rootKeyId := of_decide_eq_false (Except.ok.inj hrun)
  exact hne (Except.ok.inj (hident.symm.trans h.rootKeyId))

end ExtendedKey

end GrinDotnet
