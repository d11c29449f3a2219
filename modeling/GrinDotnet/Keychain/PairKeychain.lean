import GrinDotnet.Keychain.Keychain
import GrinDotnet.Secp.Pairs

/-!
# Keychains over pairs

An environment over the library on pairs whose keyed hash counts: the child key of an index is the
root key plus the index plus one, and an identifier is the low bytes of its key. Every index derives
and no two indices share an identifier.
-/

namespace GrinDotnet

open BigEndian Outcome

namespace Pairs

/-- The hash of 64 bytes counts the last four bytes of its message, any other one copies it. -/
def countingHash (size : ℕ) (data : Bytes) : Fixed size :=
  if h : size = 64 then
    ⟨ofNat 32 (asNat data % 2 ^ 32 + 1) ++ List.replicate 32 0, by simp [h]⟩
  else fixedOfNat size (asNat data)

/-- The environment over pairs. -/
def env : Env where
  secp := native
  hmacBlake2B _ size data := countingHash size data
  stringLe a b := decide (a ≤ b)
  stringStartsWith s p := p.toList.isPrefixOf s.toList

theorem env_ordered : env.Ordered where
  total a b := by
    rcases String.le_total a b with h | h
    · exact Or.inl (decide_eq_true h)
    · exact Or.inr (decide_eq_true h)
  trans _ _ _ hab hbc := decide_eq_true (String.le_trans (of_decide_eq_true hab) (of_decide_eq_true hbc))

/-- The key of a number. -/
def secretKey (s : ℕ) (hs : 0 < s ∧ s < order) : SecretKey native where
  value := fixedOfNat 32 s
  valid := by
    have hval : asNat (ofNat 32 s) = s :=
      asNat_ofNat (lt_trans hs.2 (lt_of_lt_of_le order_lt (by norm_num)))
    have hne : s ≠ 0 := hs.1.ne'
    have hlt : s < native.order := hs.2
    simp [Native.ecSeckeyVerify, fixedOfNat, hval, hne, hlt]

theorem scalar_secretKey {s : ℕ} (hs : 0 < s ∧ s < order) : (secretKey s hs).scalar = s :=
  asNat_ofNat (lt_trans hs.2 (lt_of_lt_of_le order_lt (by norm_num)))

theorem lt_order_of_lt {s : ℕ} (hs : s < 2 ^ 65) : s < order := lt_trans hs (by decide)

/-- The keychain of a root key. -/
def keychain (root : ℕ) (hroot : 0 < root ∧ root < 2 ^ 64) : Keychain env where
  secp := Secp256K1.withCaps .commit
  extkey :=
    { depth := 0
      nChild := 0
      rootKeyId := Identifier.zero
      chaincode := []
      key := secretKey root ⟨hroot.1, lt_trans hroot.2 (by decide)⟩ }
  keyOverrides := Dictionary.empty
  keyDerivationCache := Dictionary.empty
  caps_commit := Secp256K1.caps_withCaps .commit
  cache_entry := fun _ _ h => nomatch h

section Derivation

variable {root : ℕ} (hroot : 0 < root ∧ root < 2 ^ 64)

theorem fromSlice_ofNat {s : ℕ} (hs : 0 < s ∧ s < order) :
    SecretKey.fromSlice native (ofNat 32 s) = .ok (secretKey s hs) :=
  SecretKey.fromSlice_value (secretKey s hs)

/-- The identifier of a key is its low ten bytes. -/
theorem identifier_eq (self : ExtendedKey env.secp) :
    ∃ ident, self.identifier env (Secp256K1.withCaps .commit) = .ok ident ∧
      asNat ident.value = self.key.scalar % order % 256 ^ 10 := by
  refine ⟨⟨(countingHash 10 (0x02 :: (toKey (encode 0 (self.key.scalar % order))
    (by simp [encode])).1.take 32)).1⟩, rfl, ?_⟩
  have htake : (toKey (encode 0 (self.key.scalar % order)) (by simp [encode])).1.take 32
      = encode 0 (self.key.scalar % order) := by
    rw [toKey, List.take_left']
    simp [encode]
  have hlt : self.key.scalar % order < 256 ^ 16 := lt_trans (Nat.mod_lt _ (by decide)) order_lt
  have hval : asNat (0x02 :: encode 0 (self.key.scalar % order))
      = (2 * 256 ^ 22) * 256 ^ 10 + self.key.scalar % order := by
    have hcons : asNat ([0x02] ++ encode 0 (self.key.scalar % order))
        = asNat [0x02] * 256 ^ (encode 0 (self.key.scalar % order)).length
          + asNat (encode 0 (self.key.scalar % order)) := asNat_append _ _
    have hlen : (encode 0 (self.key.scalar % order)).length = 32 := by simp [encode]
    have hbody : asNat (encode 0 (self.key.scalar % order)) = self.key.scalar % order := by
      rw [encode, asNat_append, asNat_ofNat hlt, asNat_ofNat (by norm_num)]
      simp
    rw [hlen, hbody] at hcons
    have htwo : asNat [(0x02 : UInt8)] = 2 := rfl
    rw [htwo] at hcons
    exact hcons
  rw [htake]
  show asNat (ofNat 10 (asNat (0x02 :: encode 0 (self.key.scalar % order)))) = _
  rw [asNat_ofNat_mod, hval, Nat.mul_add_mod_self_right]

theorem child_bounds {root : ℕ} (hroot : 0 < root ∧ root < 2 ^ 64) (i : UInt32) :
    0 < i.toNat + 1 + root ∧ i.toNat + 1 + root < order := by
  have hi : i.toNat < 2 ^ 32 := i.toNat_lt
  exact ⟨by omega, lt_order_of_lt (by omega)⟩

/-- The child of an index has the root key plus the index plus one. -/
theorem derive_eq (i : UInt32) :
    ∃ child, (keychain root hroot).extkey.derive env (Secp256K1.withCaps .commit) i = .ok child ∧
      child.key.scalar = i.toNat + 1 + root := by
  have hi : i.toNat < 2 ^ 32 := i.toNat_lt
  have hindex : asNat ((fixedOfNat 32 root).1 ++ ofNat 4 i.toNat) % 2 ^ 32 = i.toNat := by
    rw [asNat_append, length_ofNat, asNat_ofNat (lt_of_lt_of_le hi (by norm_num))]
    omega
  have hbounds : 0 < i.toNat + 1 ∧ i.toNat + 1 < order := ⟨by omega, lt_order_of_lt (by omega)⟩
  have hslice : SecretKey.fromSlice native
      ((countingHash 64 ((fixedOfNat 32 root).1 ++ ofNat 4 i.toNat)).1.take 32)
      = .ok (secretKey (i.toNat + 1) hbounds) := by
    have htake : (countingHash 64 ((fixedOfNat 32 root).1 ++ ofNat 4 i.toNat)).1.take 32
        = ofNat 32 (i.toNat + 1) := by
      simp only [countingHash, dif_pos, hindex]
      rw [List.take_left' (length_ofNat 32 _)]
    rw [htake, fromSlice_ofNat hbounds]
  have hrootOrder : 0 < root ∧ root < order := ⟨hroot.1, lt_order_of_lt (by omega)⟩
  have hadd : (secretKey (i.toNat + 1) hbounds).addAssign (secretKey root hrootOrder)
      = .ok (secretKey (i.toNat + 1 + root) (child_bounds hroot i)) := by
    have htweak : native.ecPrivkeyTweakAdd (secretKey (i.toNat + 1) hbounds).value
        (secretKey root hrootOrder).value = some (fixedOfNat 32 (i.toNat + 1 + root)) := by
      have hsum : (i.toNat + 1 + root) % native.order = i.toNat + 1 + root :=
        Nat.mod_eq_of_lt (child_bounds hroot i).2
      have hleft : asNat (secretKey (i.toNat + 1) hbounds).value.1 = i.toNat + 1 :=
        scalar_secretKey hbounds
      have hright : asNat (secretKey root hrootOrder).value.1 = root := scalar_secretKey hrootOrder
      have hlt : ¬ native.order ≤ root := not_le.mpr hrootOrder.2
      simp only [Native.ecPrivkeyTweakAdd, hleft, hright, hsum]
      rw [if_neg]
      rintro (h | h)
      · exact hlt h
      · omega
    unfold SecretKey.addAssign
    split
    · next sum hsum =>
      rw [htweak] at hsum
      obtain rfl := Option.some.inj hsum
      rfl
    · next hnone =>
      rw [htweak] at hnone
      cases hnone
  obtain ⟨ident, hident, -⟩ := identifier_eq (keychain root hroot).extkey
  refine ⟨_, bind_eq_ok.mpr ⟨_, hslice, bind_eq_ok.mpr ⟨_, hadd, bind_eq_ok.mpr
    ⟨ident, hident, rfl⟩⟩⟩, scalar_secretKey (child_bounds hroot i)⟩

/-- Every index derives, and its identifier denotes its key. -/
theorem deriveIdent_eq (i : UInt32) :
    ∃ child ident, (keychain root hroot).extkey.deriveIdent env (keychain root hroot).secp i
        = .ok (child, ident) ∧
      child.key.scalar = i.toNat + 1 + root ∧ asNat ident.value = i.toNat + 1 + root := by
  obtain ⟨child, hchild, hscalar⟩ := derive_eq hroot i
  obtain ⟨ident, hident, hval⟩ := identifier_eq child
  have hi : i.toNat < 2 ^ 32 := i.toNat_lt
  refine ⟨child, ident, ExtendedKey.deriveIdent_eq_ok.mpr ⟨hchild, hident⟩, hscalar, ?_⟩
  rw [hval, hscalar, Nat.mod_eq_of_lt (child_bounds hroot i).2, Nat.mod_eq_of_lt]
  omega

theorem derivable : (keychain root hroot).Derivable := fun i _ _ => by
  obtain ⟨child, ident, h, -⟩ := deriveIdent_eq hroot i
  exact ⟨child, ident, h⟩

/-- Distinct indices have distinct identifiers. -/
theorem deriveKeyId_injective {i j : UInt32} {id : Identifier}
    (hi : (keychain root hroot).deriveKeyId i = .ok id)
    (hj : (keychain root hroot).deriveKeyId j = .ok id) : i = j := by
  have hval : ∀ k, (keychain root hroot).deriveKeyId k = .ok id →
      asNat id.value = k.toNat + 1 + root := by
    intro k hk
    obtain ⟨child, ident, hd, -, hident⟩ := deriveIdent_eq hroot k
    obtain ⟨child', hd'⟩ := Keychain.deriveKeyId_eq_ok.mp hk
    obtain ⟨rfl, rfl⟩ := Prod.mk.inj (Except.ok.inj (hd.symm.trans hd'))
    exact hident
  have h := (hval i hi).symm.trans (hval j hj)
  exact UInt32.toNat_inj.mp (by omega)

end Derivation

end Pairs

end GrinDotnet
