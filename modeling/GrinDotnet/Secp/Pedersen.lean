import Mathlib.Data.ZMod.Basic
import Mathlib.Algebra.BigOperators.Group.List.Basic
import GrinDotnet.Secp.Native

/-!
# The group behind the native library

What the program relies on in the native library, stated over an abstract group `E`.

* `Pedersen`: the points, the two generators and how commitments encode points.
* `Honest`: what the library makes, it accepts again.
* `Sound`: what the library accepts opens to a value, in the model where a point is known by its
  pair of value and blinding factor.
* `Faithful`: both.

Results:
1. `commit_eq`, `commitValue_eq`, `commitSum_eq_ok_iff`: commitments are the homomorphic sums.
2. `blindSum_eq`: the blinding sum is the sum modulo the order, refused when it is zero.
3. `verifyFromCommit_sign`: an honest signature verifies against its own commitment.
4. `value_eq_zero_of_verify`: an accepted signature belongs to a commitment to zero.
-/

namespace GrinDotnet

open BigEndian

/-- The points of the curve as an abstract group: a commitment to `v` under the key `r` is the
encoding of `v • H + r • G`. Sums go through decoded points, and the identity has no encoding. -/
structure Pedersen (N : Native) (E : Type*) [AddCommGroup E] where
  /-- The generator of the blinding factors. -/
  G : E
  /-- The generator of the values. -/
  H : E
  load : Fixed 33 → E
  save : E → Fixed 33
  /-- The point of a parsed public key. -/
  keyPoint : Fixed 64 → E
  order_nsmul : ∀ p : E, N.order • p = 0
  load_save : ∀ p, p ≠ 0 → load (save p) = p
  /-- The generators are independent: only the empty commitment is the identity. -/
  commit_ne_zero : ∀ (v : UInt64) (r : ℕ), r < N.order → (v ≠ 0 ∨ r ≠ 0) →
    v.toNat • H + r • G ≠ 0
  pedersenCommit_eq : ∀ (blind : Fixed 32) (v : UInt64), asNat blind.1 < N.order →
    v.toNat • H + asNat blind.1 • G ≠ 0 →
    N.pedersenCommit blind v = some (save (v.toNat • H + asNat blind.1 • G))
  pedersenCommitSum_eq : ∀ pos neg, (pos.map load).sum - (neg.map load).sum ≠ 0 →
    N.pedersenCommitSum pos neg = some (save ((pos.map load).sum - (neg.map load).sum))
  pedersenCommitSum_eq_none : ∀ pos neg, (pos.map load).sum - (neg.map load).sum = 0 →
    N.pedersenCommitSum pos neg = none

/-- What the library makes it accepts again: proofs, signatures and their encodings. -/
structure Honest (N : Native) (E : Type*) [AddCommGroup E] extends Pedersen N E where
  rangeproof_complete : ∀ (v : UInt64) (blind : Fixed 32) (msg : Bytes),
    asNat blind.1 < N.order → asNat blind.1 ≠ 0 →
    ∃ proof, N.rangeproofSign 0 (save (v.toNat • H + asNat blind.1 • G)) blind blind v msg
        = some proof ∧
      (N.rangeproofVerify (save (v.toNat • H + asNat blind.1 • G)) proof.1 proof.1.length).isSome
  /-- A coordinate parses under both parity tags, and one of the two keys is the point itself. -/
  pubkeyParse_complete : ∀ p, p ≠ 0 → ∃ k₂ k₃,
    N.ecPubkeyParse (0x02 :: (save p).1.tail) = some k₂ ∧
    N.ecPubkeyParse (0x03 :: (save p).1.tail) = some k₃ ∧ (keyPoint k₂ = p ∨ keyPoint k₃ = p)
  pubkeyParse_valid : ∀ bytes k, N.ecPubkeyParse bytes = some k → ∃ b ∈ k.1, b ≠ 0
  ecdsaSign_complete : ∀ (msg blind : Fixed 32), N.ecSeckeyVerify blind = true →
    ∃ sig, N.ecdsaSign msg blind = some sig ∧
      ∀ k, keyPoint k = asNat blind.1 • G → N.ecdsaVerify sig msg k = true
  der_complete : ∀ (msg blind sig), N.ecdsaSign msg blind = some sig →
    ∃ der, N.ecdsaSignatureSerializeDer sig = some der ∧ der.length ≤ 72 ∧
      N.ecdsaSignatureParseDer der = some sig

/-- What the library accepts has an opening: a point is known by its pair of value and blinding
factor modulo the order, a range proof verifies only for a value below `2 ^ 64` and a signature
only for a point of value 0. -/
structure Sound (N : Native) (E : Type*) [AddCommGroup E] extends Pedersen N E where
  opening : E →+ ZMod N.order × ZMod N.order
  opening_H : opening H = (1, 0)
  opening_G : opening G = (0, 1)
  /-- The order leaves room for the sum of any two arrays of values. -/
  two_pow_le_order : 2 ^ 100 ≤ N.order
  rangeproof_sound : ∀ c proof plen, (N.rangeproofVerify c proof plen).isSome →
    (opening (load c)).1.val < 2 ^ 64
  pubkeyParse_sound : ∀ (c : Fixed 33) tag k, tag = 0x02 ∨ tag = 0x03 →
    N.ecPubkeyParse (tag :: c.1.tail) = some k → keyPoint k = load c ∨ keyPoint k = -load c
  ecdsaVerify_sound : ∀ sig msg k, N.ecdsaVerify sig msg k = true → (opening (keyPoint k)).1 = 0

/-- The library as a whole: what it makes it accepts, and what it accepts opens. -/
structure Faithful (N : Native) (E : Type*) [AddCommGroup E] extends Honest N E, Sound N E

variable {N : Native} {E : Type*} [AddCommGroup E]

namespace Native

/-- The blinding loop on keys below the order: the sum of the first keys less the others. -/
theorem blindSumLoop_eq {blinds : List (Fixed 32)} (npositive acc : ℕ)
    (hacc : acc < N.order) (hlt : ∀ b ∈ blinds, asNat b.1 < N.order) :
    ∃ r, N.blindSumLoop blinds npositive acc = some r ∧ r < N.order ∧
      (r : ZMod N.order) = acc
        + ((blinds.take npositive).map fun b => (asNat b.1 : ZMod N.order)).sum
        - ((blinds.drop npositive).map fun b => (asNat b.1 : ZMod N.order)).sum := by
  have hpos : 0 < N.order := lt_trans one_pos N.one_lt_order
  induction blinds generalizing npositive acc with
  | nil => exact ⟨acc, rfl, hacc, by simp⟩
  | cons b blinds ih =>
    have hb : asNat b.1 < N.order := hlt b (by simp)
    have hrest : ∀ c ∈ blinds, asNat c.1 < N.order := fun c hc => hlt c (by simp [hc])
    cases npositive with
    | zero =>
      have hstep : (((acc + (N.order - asNat b.1) % N.order) % N.order : ℕ) : ZMod N.order)
          = acc - (asNat b.1 : ZMod N.order) := by
        simp [Nat.cast_sub hb.le, sub_eq_add_neg]
      obtain ⟨r, hr, hlt', hcast⟩ :=
        ih 0 ((acc + (N.order - asNat b.1) % N.order) % N.order) (Nat.mod_lt _ hpos) hrest
      refine ⟨r, ?_, hlt', ?_⟩
      · simpa [blindSumLoop, Nat.not_le.mpr hb] using hr
      · rw [hcast, hstep]
        simp
        ring
    | succ k =>
      have hstep : (((acc + asNat b.1) % N.order : ℕ) : ZMod N.order)
          = acc + (asNat b.1 : ZMod N.order) := by
        simp
      obtain ⟨r, hr, hlt', hcast⟩ :=
        ih k ((acc + asNat b.1) % N.order) (Nat.mod_lt _ hpos) hrest
      refine ⟨r, ?_, hlt', ?_⟩
      · simpa [blindSumLoop, Nat.not_le.mpr hb] using hr
      · rw [hcast, hstep]
        simp
        ring

end Native

/-! ## The blinding sum -/

namespace SecretKey

/-- The residue a key denotes. -/
def residue (key : SecretKey N) : ZMod N.order := key.scalar

theorem residue_eq_zero_iff {r : ℕ} (hr : r < N.order) : (r : ZMod N.order) = 0 ↔ r = 0 := by
  rw [ZMod.natCast_eq_zero_iff]
  exact ⟨fun h => Nat.eq_zero_of_dvd_of_lt h hr, fun h => h ▸ dvd_zero _⟩

/-- A key is known by its residue. -/
theorem residue_injective {key key' : SecretKey N} (h : key.residue = key'.residue) :
    key = key' := by
  have hscalar : key.scalar = key'.scalar := by
    have hmod := (ZMod.natCast_eq_natCast_iff' _ _ _).mp h
    rwa [Nat.mod_eq_of_lt key.scalar_lt, Nat.mod_eq_of_lt key'.scalar_lt] at hmod
  have hbytes : key.value.1 = key'.value.1 := by
    rw [← ofNat_asNat key.value.1, ← ofNat_asNat key'.value.1, key.value.2, key'.value.2]
    exact congrArg (ofNat 32) hscalar
  have hvalue : key.value = key'.value := Subtype.ext hbytes
  cases key
  cases key'
  cases hvalue
  rfl

/-- A number below the order is a valid key exactly when its residue is not zero. -/
theorem fromSlice_ofNat {r : ℕ} (hr : r < N.order) (hne : (r : ZMod N.order) ≠ 0) :
    ∃ key : SecretKey N, fromSlice N (fixedOfNat 32 r).1 = .ok key ∧ key.scalar = r := by
  have hval : asNat (ofNat 32 r) = r := asNat_ofNat (lt_of_lt_of_le hr N.order_le)
  have hvalid : N.ecSeckeyVerify (fixedOfNat 32 r) = true := by
    simp only [Native.ecSeckeyVerify, fixedOfNat, hval, Bool.and_eq_true, decide_eq_true_eq]
    exact ⟨hr, fun h => hne ((residue_eq_zero_iff hr).mpr h)⟩
  refine ⟨⟨fixedOfNat 32 r, hvalid⟩, fromSlice_value ⟨fixedOfNat 32 r, hvalid⟩, ?_⟩
  exact hval

end SecretKey

namespace Secp256K1

/-- The sum of the keys' residues, the negative ones subtracted. -/
def blindTotal (positive negative : List (SecretKey N)) : ZMod N.order :=
  (positive.map SecretKey.residue).sum - (negative.map SecretKey.residue).sum

/-- The blinding sum is read from the number of the total. -/
theorem blindSum_eq_fromSlice (positive negative : List (SecretKey N)) :
    ∃ r, r < N.order ∧ (r : ZMod N.order) = blindTotal positive negative ∧
      blindSum positive negative = SecretKey.fromSlice N (fixedOfNat 32 r).1 := by
  have hscalars : ∀ b ∈ (positive ++ negative).map (·.value), asNat b.1 < N.order := by
    intro b hb
    obtain ⟨key, -, rfl⟩ := List.mem_map.mp hb
    exact key.scalar_lt
  obtain ⟨r, hr, hlt, hcast⟩ :=
    N.blindSumLoop_eq positive.length 0 (lt_trans one_pos N.one_lt_order) hscalars
  refine ⟨r, hlt, ?_, ?_⟩
  · rw [hcast, List.map_append, List.take_left' (by simp), List.drop_left' (by simp)]
    simp only [Nat.cast_zero, zero_add, List.map_map, Function.comp_def]
    rfl
  · simp only [blindSum, Native.pedersenBlindSum, hr, Option.map_some]

/-- A blinding sum that is not zero is the key of that sum. -/
theorem blindSum_eq {positive negative : List (SecretKey N)} (h : blindTotal positive negative ≠ 0) :
    ∃ key, blindSum positive negative = .ok key ∧ key.residue = blindTotal positive negative := by
  obtain ⟨r, hlt, htotal, hsum⟩ := blindSum_eq_fromSlice positive negative
  obtain ⟨key, hkey, hscalar⟩ := SecretKey.fromSlice_ofNat hlt (htotal ▸ h)
  refine ⟨key, hsum.trans hkey, ?_⟩
  rw [SecretKey.residue, hscalar, htotal]

/-- A blinding sum that is zero is refused. -/
theorem blindSum_of_zero {positive negative : List (SecretKey N)}
    (h : blindTotal positive negative = 0) :
    blindSum positive negative = .error (.exception "InvalidSecretKey") := by
  obtain ⟨r, hlt, htotal, hsum⟩ := blindSum_eq_fromSlice positive negative
  obtain rfl : r = 0 := (SecretKey.residue_eq_zero_iff hlt).mp (htotal.trans h)
  have hzero : asNat (fixedOfNat 32 0).1 = 0 := by decide
  exact hsum.trans (SecretKey.fromSlice_of_zero hzero)

end Secp256K1

/-! ## Commitments -/

namespace Pedersen

variable (P : Pedersen N E)

/-- The multiples of the blinding generator, by residue. -/
def base : ZMod N.order →+ E :=
  ZMod.lift N.order ⟨zmultiplesHom E P.G, by simp [P.order_nsmul]⟩

@[simp] theorem base_natCast (r : ℕ) : P.base r = r • P.G := by
  have h := ZMod.lift_coe N.order ⟨zmultiplesHom E P.G, by simp [P.order_nsmul]⟩ (r : ℤ)
  simpa [base] using h

@[simp] theorem base_residue (key : SecretKey N) : P.base key.residue = key.scalar • P.G := by
  simp [SecretKey.residue]

include P in
/-- A multiple of the order takes every point to the identity. -/
theorem zsmul_eq_zero {d : ℤ} (h : (d : ZMod N.order) = 0) (p : E) : d • p = 0 := by
  obtain ⟨k, rfl⟩ := (ZMod.intCast_zmod_eq_zero_iff_dvd _ _).mp h
  rw [mul_comm, mul_zsmul, natCast_zsmul, P.order_nsmul, zsmul_zero]

/-- The point of a commitment. -/
def point (c : Commitment) : E := P.load c.value

/-- The sum of the points of a list of commitments. -/
def pointSum (cs : List Commitment) : E := (cs.map P.point).sum

@[simp] theorem pointSum_nil : P.pointSum [] = 0 := rfl

@[simp] theorem pointSum_cons (c : Commitment) (cs : List Commitment) :
    P.pointSum (c :: cs) = P.point c + P.pointSum cs := by
  simp [pointSum]

@[simp] theorem pointSum_append (cs ds : List Commitment) :
    P.pointSum (cs ++ ds) = P.pointSum cs + P.pointSum ds := by
  simp [pointSum]

theorem key_ne_zero (key : SecretKey N) (v : UInt64) :
    v.toNat • P.H + key.scalar • P.G ≠ 0 :=
  P.commit_ne_zero v _ key.scalar_lt (.inr key.scalar_ne_zero)

theorem point_save {p : E} (h : p ≠ 0) : P.point ⟨P.save p⟩ = p := P.load_save p h

theorem commit_eq {secp : Secp256K1} (hcaps : secp.caps = .commit) (v : UInt64)
    (key : SecretKey N) :
    secp.commit v key = .ok ⟨P.save (v.toNat • P.H + key.scalar • P.G)⟩ := by
  have h := P.pedersenCommit_eq key.value v key.scalar_lt (P.key_ne_zero key v)
  simp [Secp256K1.commit, hcaps, h, SecretKey.scalar]

/-- A commitment to a value other than zero without blinding. -/
theorem commitValue_eq {secp : Secp256K1} (hcaps : secp.caps = .commit) {v : UInt64} (hv : v ≠ 0) :
    ∃ c, secp.commitValue N v = .ok c ∧ P.point c = v.toNat • P.H := by
  have hzero : asNat (zeros 32).1 = 0 := by decide
  have hne := P.commit_ne_zero v 0 (lt_trans one_pos N.one_lt_order) (.inl hv)
  have h := P.pedersenCommit_eq (zeros 32) v (by rw [hzero]; exact lt_trans one_pos N.one_lt_order)
    (by rw [hzero]; exact hne)
  simp only [hzero, zero_nsmul, add_zero] at h hne
  refine ⟨⟨P.save (v.toNat • P.H)⟩, ?_, P.point_save hne⟩
  simp [Secp256K1.commitValue, hcaps, h]

/-- A commitment sum is the encoding of the sum of the points, and fails on the identity only. -/
theorem commitSum_eq_ok_iff {pos neg : List Commitment} {c : Commitment} :
    Secp256K1.commitSum N pos neg = .ok c ↔
      P.pointSum pos - P.pointSum neg ≠ 0 ∧ c = ⟨P.save (P.pointSum pos - P.pointSum neg)⟩ := by
  have hpos : ((pos.map (·.value)).map P.load).sum = P.pointSum pos := by
    rw [List.map_map]; rfl
  have hneg : ((neg.map (·.value)).map P.load).sum = P.pointSum neg := by
    rw [List.map_map]; rfl
  unfold Secp256K1.commitSum
  by_cases hz : P.pointSum pos - P.pointSum neg = 0
  · rw [P.pedersenCommitSum_eq_none _ _ (by rw [hpos, hneg]; exact hz)]
    simp [hz]
  · rw [P.pedersenCommitSum_eq _ _ (by rw [hpos, hneg]; exact hz), hpos, hneg]
    simp only [Except.ok.injEq, ne_eq, hz, not_false_eq_true, true_and]
    exact eq_comm

theorem commitSum_of_ne {pos neg : List Commitment} (h : P.pointSum pos - P.pointSum neg ≠ 0) :
    Secp256K1.commitSum N pos neg = .ok ⟨P.save (P.pointSum pos - P.pointSum neg)⟩ :=
  P.commitSum_eq_ok_iff.mpr ⟨h, rfl⟩

theorem point_commitSum {pos neg : List Commitment} {c : Commitment}
    (h : Secp256K1.commitSum N pos neg = .ok c) :
    P.point c = P.pointSum pos - P.pointSum neg := by
  obtain ⟨hne, rfl⟩ := P.commitSum_eq_ok_iff.mp h
  exact P.point_save hne

end Pedersen

/-! ## Signatures -/

theorem verify_eq_ok_iff {secp : Secp256K1} {msg : Message} {sig : Signiture} {key : PublicKey} :
    secp.verify N msg sig key = .ok () ↔
      secp.canVerify = true ∧ key.isValid = true ∧
        N.ecdsaVerify sig.value msg.value key.value = true := by
  unfold Secp256K1.verify
  split
  · simp_all
  · split
    · simp_all
    · split <;> simp_all

/-- A signature verifies against a commitment when it verifies under one of its two candidate
keys, both of which have to parse. -/
theorem verifyFromCommit_eq_ok_iff {secp : Secp256K1} {msg : Message} {sig : Signiture}
    {c : Commitment} :
    secp.verifyFromCommit N msg sig c = .ok () ↔
      secp.caps = .commit ∧ ∃ k₂ k₃,
        N.ecPubkeyParse (0x02 :: c.value.1.tail) = some k₂ ∧
        N.ecPubkeyParse (0x03 :: c.value.1.tail) = some k₃ ∧
        (secp.verify N msg sig ⟨k₂⟩ = .ok () ∨ secp.verify N msg sig ⟨k₃⟩ = .ok ()) := by
  unfold Secp256K1.verifyFromCommit Commitment.toTwoPubkeys PublicKey.fromSlice
  by_cases hcaps : secp.caps = .commit
  · rw [if_pos hcaps]
    cases h₂ : N.ecPubkeyParse (0x02 :: c.value.1.tail) with
    | none => simp [bind, Except.bind]
    | some k₂ =>
      cases h₃ : N.ecPubkeyParse (0x03 :: c.value.1.tail) with
      | none => simp [bind, Except.bind]
      | some k₃ =>
        simp only [bind, Except.bind, pure, Except.pure, hcaps, true_and]
        cases hv : secp.verify N msg sig ⟨k₂⟩ with
        | ok _ => simp [hv]
        | error _ => simp [hv]
  · simp [hcaps]

namespace Honest

variable (P : Honest N E)

/-- Signing works with any key, and the signature verifies against the commitment to zero under
that key. -/
theorem verifyFromCommit_sign {secp : Secp256K1} (hcaps : secp.caps = .commit) (msg : Message)
    (key : SecretKey N) :
    ∃ sig der, secp.sign msg key = .ok sig ∧ sig.serializeDer N = .ok der ∧ der.length ≤ 72 ∧
      Signiture.fromDer N der = .ok sig ∧
      secp.verifyFromCommit N msg sig ⟨P.save (key.scalar • P.G)⟩ = .ok () := by
  obtain ⟨sig, hsig, hver⟩ := P.ecdsaSign_complete msg.value key.value key.valid
  obtain ⟨der, hder, hlen, hparse⟩ := P.der_complete _ _ _ hsig
  have hne : key.scalar • P.G ≠ 0 := by
    simpa using P.commit_ne_zero 0 _ key.scalar_lt (.inr key.scalar_ne_zero)
  obtain ⟨k₂, k₃, h₂, h₃, hpoint⟩ := P.pubkeyParse_complete _ hne
  have hverify : secp.canVerify = true := by simp [Secp256K1.canVerify, hcaps]
  have haccept : ∀ k, (∃ bytes, N.ecPubkeyParse bytes = some k) →
      P.keyPoint k = key.scalar • P.G → secp.verify N msg ⟨sig⟩ ⟨k⟩ = .ok () := by
    rintro k ⟨bytes, hk⟩ hkp
    obtain ⟨b, hb, hb0⟩ := P.pubkeyParse_valid _ _ hk
    refine verify_eq_ok_iff.mpr ⟨hverify, ?_, hver k hkp⟩
    exact List.any_eq_true.mpr ⟨b, hb, by simpa using hb0⟩
  refine ⟨⟨sig⟩, der, ?_, ?_, hlen, ?_, ?_⟩
  · simp [Secp256K1.sign, Secp256K1.canSign, hcaps, hsig]
  · simp [Signiture.serializeDer, hder]
  · simp [Signiture.fromDer, hparse]
  · refine verifyFromCommit_eq_ok_iff.mpr ⟨hcaps, k₂, k₃, h₂, h₃, ?_⟩
    exact hpoint.imp (haccept k₂ ⟨_, h₂⟩) (haccept k₃ ⟨_, h₃⟩)

/-- A proof made with the commitment's own key verifies. -/
theorem verifyRangeProof_rangeProof (v : UInt64) (key : SecretKey N) (msg : Bytes) :
    (∃ range, Secp256K1.verifyRangeProof N ⟨P.save (v.toNat • P.H + key.scalar • P.G)⟩
      (Secp256K1.rangeProof 0 v key ⟨P.save (v.toNat • P.H + key.scalar • P.G)⟩ msg) = .ok range) ∧
    (Secp256K1.rangeProof 0 v key ⟨P.save (v.toNat • P.H + key.scalar • P.G)⟩ msg).proof.length
      ≤ maxProofSize ∧
    (Secp256K1.rangeProof 0 v key ⟨P.save (v.toNat • P.H + key.scalar • P.G)⟩ msg).plen
      = (Secp256K1.rangeProof 0 v key ⟨P.save (v.toNat • P.H + key.scalar • P.G)⟩ msg).proof.length
      := by
  obtain ⟨proof, hproof, hver⟩ :=
    P.rangeproof_complete v key.value msg key.scalar_lt key.scalar_ne_zero
  obtain ⟨range, hrange⟩ := Option.isSome_iff_exists.mp hver
  have hmake : Secp256K1.rangeProof 0 v key ⟨P.save (v.toNat • P.H + key.scalar • P.G)⟩ msg
      = ⟨proof.1, proof.1.length⟩ := by
    simp only [Secp256K1.rangeProof, SecretKey.scalar, hproof]
  rw [hmake]
  refine ⟨⟨range, ?_⟩, proof.2, rfl⟩
  simp only [Secp256K1.verifyRangeProof, SecretKey.scalar, hrange]

end Honest

/-! ## Openings -/

namespace Sound

variable (P : Sound N E)

/-- The value a commitment opens to. -/
def value (c : Commitment) : ℕ := (P.opening (P.point c)).1.val

/-- The residue of the value of a point. -/
def valueHom : E →+ ZMod N.order := (AddMonoidHom.fst _ _).comp P.opening

theorem cast_value (c : Commitment) : (P.value c : ZMod N.order) = P.valueHom (P.point c) := by
  have : NeZero N.order := ⟨(lt_trans one_pos N.one_lt_order).ne'⟩
  exact ZMod.natCast_zmod_val _

theorem valueHom_H : P.valueHom P.H = 1 := by simp [valueHom, P.opening_H]

theorem valueHom_G : P.valueHom P.G = 0 := by simp [valueHom, P.opening_G]

theorem valueHom_pointSum (cs : List Commitment) :
    P.valueHom (P.pointSum cs) = (((cs.map P.value).sum : ℕ) : ZMod N.order) := by
  induction cs with
  | nil => simp
  | cons c cs ih => simp [ih, ← P.cast_value]

theorem value_lt_of_verifyRangeProof {c : Commitment} {proof : RangeProof} {range : UInt64 × UInt64}
    (h : Secp256K1.verifyRangeProof N c proof = .ok range) : P.value c < 2 ^ 64 := by
  refine P.rangeproof_sound c.value proof.proof proof.plen ?_
  unfold Secp256K1.verifyRangeProof at h
  split at h
  · next hr => simp [hr]
  · cases h

/-- A signature is accepted only for a commitment to zero: the two candidate keys are the
commitment's point up to sign. -/
theorem value_eq_zero_of_verify {secp : Secp256K1} {msg : Message} {sig : Signiture}
    {c : Commitment} (h : secp.verifyFromCommit N msg sig c = .ok ()) :
    P.valueHom (P.point c) = 0 := by
  have hkey : ∀ tag k, (tag = 0x02 ∨ tag = 0x03) → N.ecPubkeyParse (tag :: c.value.1.tail) = some k →
      secp.verify N msg sig ⟨k⟩ = .ok () → P.valueHom (P.point c) = 0 := by
    intro tag k htag hk hv
    have hzero : P.valueHom (P.keyPoint k) = 0 :=
      P.ecdsaVerify_sound _ _ _ (verify_eq_ok_iff.mp hv).2.2
    rcases P.pubkeyParse_sound c.value tag k htag hk with hp | hp
    · rwa [hp] at hzero
    · rw [hp, map_neg, neg_eq_zero] at hzero
      exact hzero
  obtain ⟨-, k₂, k₃, h₂, h₃, hv | hv⟩ := verifyFromCommit_eq_ok_iff.mp h
  · exact hkey _ k₂ (.inl rfl) h₂ hv
  · exact hkey _ k₃ (.inr rfl) h₃ hv

end Sound

end GrinDotnet
