import Mathlib.Algebra.Field.ZMod
import GrinDotnet.Secp.Curve

/-!
# Signatures

`secp256k1_ecdsa_sign` and `secp256k1_ecdsa_verify`, with the nonces of RFC 6979. The verifier compares
coordinates without reducing the one it has computed: a residue stands for two coordinates at most.

Results:
1. `sigVerify_iff`: the comparison in two steps is the one of the residues.
2. `ecdsaVerify_iff`: what is accepted; of a signature and its negation one at most.
3. `ecdsa_accepted`: a signature that was made is accepted unless its first part is zero.
-/

namespace GrinDotnet

open BigEndian

namespace Ecdsa

variable {n : ℕ} {E : Type*} [AddCommGroup E] [Module (ZMod n) E] [DecidableEq E] (C : Curve n E)

/-! ## Verifying -/

/-- `secp256k1_scalar_is_high`. -/
def scalarIsHigh (a : ZMod n) : Bool := decide (n / 2 < a.val)

/-- `secp256k1_ecdsa_sig_verify` over a field of `p` elements. -/
def sigVerify (p : ℕ) (sigr sigs : ZMod n) (pubkey : E) (message : ZMod n) : Bool :=
  if sigr = 0 ∨ sigs = 0 then false
  else
    let sn := sigs⁻¹
    let u1 := sn * message
    let u2 := sn * sigr
    let pr := C.ecmult pubkey u2 u1
    if pr = 0 then false
    else
      let xr := sigr.val
      if xr = asNat (C.x pr).1 then true
      else if p - n ≤ xr then false
      else decide (xr + n = asNat (C.x pr).1)

/-- `secp256k1_ecdsa_verify` of a signature that was loaded, with the check of `secp256k1_pubkey_load`. -/
def ecdsaVerify (p : ℕ) (sig : ZMod n × ZMod n) (msg32 : Bytes) (pubkey : E) : Bool :=
  let (r, s) := sig
  let (m, _) := Curve.scalarSetB32 n msg32
  !scalarIsHigh s && decide (asNat (C.x pubkey).1 ≠ 0) && sigVerify C p r s pubkey m

/-! ## Signing -/

/-- `secp256k1_ecdsa_sig_sign`. -/
def sigSign (seckey message nonce : ZMod n) : Option (ZMod n × ZMod n) :=
  let r := C.ecmultGen nonce
  let (sigr, _) := Curve.scalarSetB32 n (C.x r).1
  let sigs := nonce⁻¹ * (sigr * seckey + message)
  if sigs = 0 then none else some (sigr, if scalarIsHigh sigs then -sigs else sigs)

/-- The loop of `nonce_function_rfc6979`: what was generated last. -/
def generateLast : ℕ → Curve.Rfc6979 → Bytes
  | 0, rng => (C.rfc6979Generate rng).1
  | counter + 1, rng => generateLast counter (C.rfc6979Generate rng).2

/-- `nonce_function_rfc6979` without further data. -/
def nonceFunction (msg32 key32 : Bytes) (counter : ℕ) : Bytes :=
  generateLast C counter (C.rfc6979Initialize (key32 ++ msg32))

/-- The loop of `secp256k1_ecdsa_sign` over the nonces. -/
def signLoop (msg32 seckey : Bytes) (sec msg : ZMod n) : ℕ → ℕ → Option (ZMod n × ZMod n)
  | 0, _ => none
  | fuel + 1, count =>
    let (non, overflow) := Curve.scalarSetB32 n (nonceFunction C msg32 seckey count)
    if !overflow && decide (non ≠ 0) then
      match sigSign C sec msg non with
      | some sig => some sig
      | none => signLoop msg32 seckey sec msg fuel (count + 1)
    else signLoop msg32 seckey sec msg fuel (count + 1)

/-- `secp256k1_ecdsa_sign`: no signature under a key that is none. -/
def ecdsaSign (fuel : ℕ) (msg32 seckey : Bytes) : Option (ZMod n × ZMod n) :=
  let (sec, overflow) := Curve.scalarSetB32 n seckey
  if !overflow && decide (sec ≠ 0) then
    let (msg, _) := Curve.scalarSetB32 n msg32
    signLoop C msg32 seckey sec msg fuel 0
  else none

/-! ## Coordinates -/

/-- The coordinates of the curve are in a field of `p` elements, and `p` is between the order and its
double. -/
structure Coordinates (p : ℕ) : Prop where
  order_lt : n < p
  le_double : p ≤ 2 * n
  x_lt : ∀ q, asNat (C.x q).1 < p
  x_neg : ∀ q, C.x (-q) = C.x q
  x_ne_zero : ∀ q, q ≠ 0 → asNat (C.x q).1 ≠ 0
  G_ne_zero : C.G ≠ 0

/-- The curve to compute with has coordinates below the order. -/
theorem coordinates_orderCurve : Coordinates Curve.orderCurve (2 * Curve.order) where
  order_lt := by decide
  le_double := le_rfl
  x_lt q := by
    have hle := ZMod.natAbs_valMinAbs_le q
    have hnumber : asNat (Curve.orderCurve.x q).1 = q.valMinAbs.natAbs :=
      asNat_ofNat (lt_of_le_of_lt hle (by decide))
    rw [hnumber]
    exact lt_of_le_of_lt hle (by decide)
  x_neg q := Subtype.ext (congrArg (ofNat 32) (ZMod.natAbs_valMinAbs_neg q))
  x_ne_zero q hq := by
    have hle := ZMod.natAbs_valMinAbs_le q
    have hnumber : asNat (Curve.orderCurve.x q).1 = q.valMinAbs.natAbs :=
      asNat_ofNat (lt_of_le_of_lt hle (by decide))
    rw [hnumber, ne_eq, Int.natAbs_eq_zero, ZMod.valMinAbs_eq_zero]
    exact hq
  G_ne_zero := one_ne_zero

variable {C} {p : ℕ}

/-- A residue is the one of two coordinates. -/
theorem cast_eq_iff [NeZero n] {p x : ℕ} (hlt : n < p) (hle : p ≤ 2 * n) (hx : x < p) (r : ZMod n) :
    (x : ZMod n) = r ↔ r.val = x ∨ (¬ p - n ≤ r.val ∧ r.val + n = x) := by
  have hr : r.val < n := ZMod.val_lt r
  rw [← ZMod.natCast_zmod_val r, ZMod.natCast_eq_natCast_iff', Nat.mod_eq_of_lt hr, ZMod.natCast_zmod_val]
  by_cases hsmall : x < n
  · rw [Nat.mod_eq_of_lt hsmall]
    omega
  · have hmod : x % n = x - n := by
      rw [Nat.mod_eq_sub_mod (Nat.not_lt.mp hsmall), Nat.mod_eq_of_lt (by omega)]
    rw [hmod]
    omega

/-- The coordinate that the verifier looks for is the one with the residue. -/
theorem sigVerify_iff [NeZero n] (hC : Coordinates C p) {r s : ZMod n} {pubkey : E} {m : ZMod n} :
    sigVerify C p r s pubkey m = true ↔ r ≠ 0 ∧ s ≠ 0 ∧
      C.ecmult pubkey (s⁻¹ * r) (s⁻¹ * m) ≠ 0 ∧
        (asNat (C.x (C.ecmult pubkey (s⁻¹ * r) (s⁻¹ * m))).1 : ZMod n) = r := by
  rw [sigVerify, cast_eq_iff hC.order_lt hC.le_double (hC.x_lt _)]
  split
  · next hzero =>
    refine iff_of_false Bool.false_ne_true ?_
    rintro ⟨hr, hs, -⟩
    exact hzero.elim hr hs
  · next hzero =>
    obtain ⟨hr, hs⟩ := not_or.mp hzero
    simp only
    split
    · next hinfinity => exact iff_of_false Bool.false_ne_true fun h => h.2.2.1 hinfinity
    · next hfinite =>
      simp only [hr, hs, hfinite, ne_eq, not_false_eq_true, true_and]
      split
      · next hfirst => exact iff_of_true rfl (.inl hfirst)
      · next hfirst =>
        split
        · next hlarge => exact iff_of_false Bool.false_ne_true fun h => h.elim hfirst fun h => h.1 hlarge
        · next hsmall => simp [hfirst, hsmall]

/-- What the verifier accepts, without the comparison in two steps. Its twin with the other half of the
scalars is refused. -/
theorem ecdsaVerify_iff [NeZero n] (hC : Coordinates C p) (hodd : n % 2 = 1) {r s : ZMod n} {msg32 : Bytes}
    {pubkey : E} : (ecdsaVerify C p (r, s) msg32 pubkey = true ↔
      s.val ≤ n / 2 ∧ asNat (C.x pubkey).1 ≠ 0 ∧ r ≠ 0 ∧ s ≠ 0 ∧
        C.ecmult pubkey (s⁻¹ * r) (s⁻¹ * asNat msg32) ≠ 0 ∧
          (asNat (C.x (C.ecmult pubkey (s⁻¹ * r) (s⁻¹ * asNat msg32))).1 : ZMod n) = r) ∧
      (ecdsaVerify C p (r, s) msg32 pubkey = true → ecdsaVerify C p (r, -s) msg32 pubkey = false) := by
  have hiff : ∀ s : ZMod n, ecdsaVerify C p (r, s) msg32 pubkey = true ↔
      s.val ≤ n / 2 ∧ asNat (C.x pubkey).1 ≠ 0 ∧ sigVerify C p r s pubkey (asNat msg32) = true := by
    intro s
    simp only [ecdsaVerify, Curve.scalarSetB32, scalarIsHigh, Bool.and_eq_true, Bool.not_eq_true',
      decide_eq_false_iff_not, decide_eq_true_eq, Nat.not_lt, and_assoc]
  refine ⟨by rw [hiff, sigVerify_iff hC], fun h => ?_⟩
  obtain ⟨hlow, -, hverify⟩ := (hiff s).mp h
  have hs : s ≠ 0 := ((sigVerify_iff hC).mp hverify).2.1
  rw [← Bool.not_eq_true, hiff]
  rintro ⟨hlow', -⟩
  have hneg : (-s).val = n - s.val := by
    have : NeZero s := ⟨hs⟩
    exact ZMod.val_neg_of_ne_zero s
  have hlt : s.val < n := ZMod.val_lt s
  omega

/-- The signature `(1, 11)` of the message six, and its twin. -/
theorem ecdsaVerify_iff_order :
    ecdsaVerify Curve.orderCurve (2 * Curve.order) (1, 11) (ofNat 32 6) 5 = true ∧
      (ecdsaVerify Curve.orderCurve (2 * Curve.order) (1, 11) (ofNat 32 6) 5 = true ↔
        (11 : ZMod Curve.order).val ≤ Curve.order / 2 ∧ asNat (Curve.orderCurve.x 5).1 ≠ 0 ∧
          (1 : ZMod Curve.order) ≠ 0 ∧ (11 : ZMod Curve.order) ≠ 0 ∧
          Curve.orderCurve.ecmult 5 (11⁻¹ * 1) (11⁻¹ * asNat (ofNat 32 6)) ≠ 0 ∧
            (asNat (Curve.orderCurve.x (Curve.orderCurve.ecmult 5 (11⁻¹ * 1) (11⁻¹ * asNat (ofNat 32 6)))).1 :
              ZMod Curve.order) = 1) ∧
      (ecdsaVerify Curve.orderCurve (2 * Curve.order) (1, 11) (ofNat 32 6) 5 = true →
        ecdsaVerify Curve.orderCurve (2 * Curve.order) (1, -11) (ofNat 32 6) 5 = false) :=
  ⟨by decide +kernel, ecdsaVerify_iff coordinates_orderCurve (by decide)⟩

/-! ## What was signed -/

omit [DecidableEq E] in
theorem exists_of_signLoop {msg32 seckey : Bytes} {sec msg : ZMod n} {fuel count : ℕ} {sig : ZMod n × ZMod n}
    (h : signLoop C msg32 seckey sec msg fuel count = some sig) :
    ∃ non, non ≠ 0 ∧ sigSign C sec msg non = some sig := by
  induction fuel generalizing count with
  | zero => cases h
  | succ fuel ih =>
    rw [signLoop] at h
    simp only at h
    split at h
    · next hnonce =>
      simp only [Bool.and_eq_true, decide_eq_true_eq] at hnonce
      split at h
      · next sig' hsig =>
        obtain rfl := Option.some.inj h
        exact ⟨_, hnonce.2, hsig⟩
      · exact ih h
    · exact ih h

/-- Of a scalar and its negation the lower one is not high. -/
theorem scalarIsHigh_lower [NeZero n] (a : ZMod n) :
    scalarIsHigh (if scalarIsHigh a then -a else a) = false := by
  split
  · next hhigh =>
    simp only [scalarIsHigh, decide_eq_true_eq, decide_eq_false_iff_not, Nat.not_lt] at hhigh ⊢
    have hne : a ≠ 0 := by
      rintro rfl
      rw [ZMod.val_zero] at hhigh
      exact absurd hhigh (Nat.not_lt_zero _)
    have : NeZero a := ⟨hne⟩
    rw [ZMod.val_neg_of_ne_zero]
    have hlt : a.val < n := ZMod.val_lt a
    omega
  · next hlow => exact Bool.not_eq_true _ ▸ hlow

omit [DecidableEq E] in
/-- The verifier's point is the one of the nonce, up to its sign. -/
theorem ecmult_of_sign [Fact n.Prime] {sec r m k : ZMod n} (ht : k⁻¹ * (r * sec + m) ≠ 0)
    {s : ZMod n} (hs : s = k⁻¹ * (r * sec + m) ∨ s = -(k⁻¹ * (r * sec + m))) :
    C.ecmult (sec • C.G) (s⁻¹ * r) (s⁻¹ * m) = k • C.G ∨
      C.ecmult (sec • C.G) (s⁻¹ * r) (s⁻¹ * m) = -(k • C.G) := by
  have hsum : C.ecmult (sec • C.G) (s⁻¹ * r) (s⁻¹ * m) = (s⁻¹ * (r * sec + m)) • C.G := by
    rw [Curve.ecmult, ← mul_smul, ← add_smul]
    congr 1
    ring
  have hsum' : r * sec + m ≠ 0 := fun h => ht (by rw [h, mul_zero])
  have hinv : (k⁻¹ * (r * sec + m))⁻¹ * (r * sec + m) = k := by
    rw [mul_inv, inv_inv, mul_assoc, inv_mul_cancel₀ hsum', mul_one]
  rcases hs with rfl | rfl
  · exact .inl (by rw [hsum, hinv])
  · exact .inr (by rw [hsum, inv_neg, neg_mul, hinv, neg_smul])

/-- What is made with a nonce verifies, unless the coordinate of the nonce is a multiple of the order. -/
theorem sigSign_spec [Fact n.Prime] (hC : Coordinates C p) {sec m k r s : ZMod n} (hk : k ≠ 0)
    (hsig : sigSign C sec m k = some (r, s)) : scalarIsHigh s = false ∧ s ≠ 0 ∧
      (sigVerify C p r s (sec • C.G) m = true ↔ r ≠ 0) := by
  rw [sigSign] at hsig
  simp only at hsig
  split at hsig
  · cases hsig
  · next hzero =>
    obtain ⟨rfl, rfl⟩ := Prod.mk.inj (Option.some.inj hsig)
    generalize hr : (Curve.scalarSetB32 n (C.x (C.ecmultGen k)).1).1 = r at hzero
    have hlow := scalarIsHigh_lower (k⁻¹ * (r * sec + m))
    have hsign : (if scalarIsHigh (k⁻¹ * (r * sec + m)) then -(k⁻¹ * (r * sec + m)) else
        k⁻¹ * (r * sec + m)) = k⁻¹ * (r * sec + m) ∨
        (if scalarIsHigh (k⁻¹ * (r * sec + m)) then -(k⁻¹ * (r * sec + m)) else
          k⁻¹ * (r * sec + m)) = -(k⁻¹ * (r * sec + m)) := by
      split
      · exact .inr rfl
      · exact .inl rfl
    generalize (if scalarIsHigh (k⁻¹ * (r * sec + m)) then -(k⁻¹ * (r * sec + m)) else
      k⁻¹ * (r * sec + m)) = s at hlow hsign ⊢
    have hs : s ≠ 0 := by
      rcases hsign with rfl | rfl
      · exact hzero
      · exact neg_ne_zero.mpr hzero
    -- the coordinate does not depend on the sign
    have hx : C.x (C.ecmult (sec • C.G) (s⁻¹ * r) (s⁻¹ * m)) = C.x (k • C.G) := by
      rcases ecmult_of_sign (C := C) hzero hsign with h | h
      · rw [h]
      · rw [h, hC.x_neg]
    have hfinite : C.ecmult (sec • C.G) (s⁻¹ * r) (s⁻¹ * m) ≠ 0 := by
      have hpoint : k • C.G ≠ 0 := smul_ne_zero hk hC.G_ne_zero
      rcases ecmult_of_sign (C := C) hzero hsign with h | h
      · rwa [h]
      · rwa [h, neg_ne_zero]
    have hres : (asNat (C.x (k • C.G)).1 : ZMod n) = r := hr
    rw [sigVerify_iff hC, hx, hres]
    exact ⟨hlow, hs, fun h => h.1, fun h => ⟨h, hs, hfinite, rfl⟩⟩

/-- A signature that was made has a second part in the lower half, and is accepted under the public key
unless its first part is zero. -/
theorem ecdsa_accepted [Fact n.Prime] (hC : Coordinates C p) {fuel : ℕ} {msg32 seckey : Bytes}
    {r s : ZMod n} (hsign : ecdsaSign C fuel msg32 seckey = some (r, s)) :
    scalarIsHigh s = false ∧ s ≠ 0 ∧
      (ecdsaVerify C p (r, s) msg32 ((Curve.scalarSetB32 n seckey).1 • C.G) = true ↔ r ≠ 0) := by
  rw [ecdsaSign] at hsign
  simp only at hsign
  split at hsign
  · next hkey =>
    simp only [Bool.and_eq_true, decide_eq_true_eq] at hkey
    obtain ⟨k, hk, hsig⟩ := exists_of_signLoop hsign
    obtain ⟨hlow, hs, hverify⟩ := sigSign_spec hC hk hsig
    have hpubkey : asNat (C.x ((Curve.scalarSetB32 n seckey).1 • C.G)).1 ≠ 0 :=
      hC.x_ne_zero _ (smul_ne_zero hkey.2 hC.G_ne_zero)
    refine ⟨hlow, hs, ?_⟩
    simp only [ecdsaVerify, hlow, Bool.not_false, Bool.true_and, Bool.and_eq_true, decide_eq_true_eq]
    rw [hverify]
    exact ⟨fun h => h.2, fun h => ⟨hpubkey, h⟩⟩
  · cases hsign

theorem ecdsa_accepted_order : ∃ r s, ecdsaSign Curve.orderCurve 1 (ofNat 32 6) (ofNat 32 5) = some (r, s) ∧
    scalarIsHigh s = false ∧ s ≠ 0 ∧
      (ecdsaVerify Curve.orderCurve (2 * Curve.order) (r, s) (ofNat 32 6)
        ((Curve.scalarSetB32 Curve.order (ofNat 32 5)).1 • Curve.orderCurve.G) = true ↔ r ≠ 0) := by
  have hsome : (ecdsaSign Curve.orderCurve 1 (ofNat 32 6) (ofNat 32 5)).isSome := by decide +kernel
  obtain ⟨⟨r, s⟩, hsign⟩ := Option.isSome_iff_exists.mp hsome
  exact ⟨r, s, hsign, ecdsa_accepted coordinates_orderCurve hsign⟩

end Ecdsa

end GrinDotnet
