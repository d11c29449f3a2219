import Mathlib.Data.ZMod.ValMinAbs
import Mathlib.NumberTheory.LucasPrimality
import Mathlib.Tactic.NormNum.Prime
import Mathlib.Tactic.ReduceModChar
import GrinDotnet.Lib.BigEndian

/-!
# The curve below the native modules

The signatures and the range proofs of the native library are written in terms of scalars, points and
a hash. Scalars are numbers modulo the order of the group. The points, their coordinates and the
compression function of the hash are parameters, and `0` is the point at infinity.

Results:
1. `scalarSetB32_getB32`: a scalar is read back from its bytes.
2. `setXquad_serializePoint`: a point is known by its coordinate and its flag.
-/

namespace GrinDotnet

open BigEndian

/-- The group of the curve, of order `n`, and the hash. -/
structure Curve (n : ℕ) (E : Type*) [AddCommGroup E] where
  order_le : n ≤ 256 ^ 32
  /-- The generator of `secp256k1_ecmult_gen`. -/
  G : E
  /-- The normalized first coordinate. -/
  x : E → Fixed 32
  /-- `secp256k1_fe_is_quad_var` of the second coordinate. -/
  isQuad : E → Bool
  /-- `secp256k1_fe_is_odd` of the second coordinate. -/
  isOdd : E → Bool
  /-- `secp256k1_ge_set_xquad` after `secp256k1_fe_set_b32`. -/
  setXquad : Bytes → E
  sha256 : Bytes → Fixed 32
  setXquad_x : ∀ p, p ≠ 0 → setXquad (x p).1 = if isQuad p then p else -p

namespace Curve

variable {n : ℕ} {E : Type*} [AddCommGroup E] (C : Curve n E)

/-! ## Scalars -/

/-- `secp256k1_scalar_set_b32`: the scalar, and whether the number was too large. -/
def scalarSetB32 (n : ℕ) (b32 : Bytes) : ZMod n × Bool := (asNat b32, decide (n ≤ asNat b32))

/-- `secp256k1_scalar_get_b32`. -/
def scalarGetB32 (a : ZMod n) : Bytes := ofNat 32 a.val

@[simp] theorem length_scalarGetB32 (a : ZMod n) : (scalarGetB32 a).length = 32 := length_ofNat 32 _

include C in
/-- A scalar is read back from its bytes. -/
theorem scalarSetB32_getB32 [NeZero n] (a : ZMod n) : scalarSetB32 n (scalarGetB32 a) = (a, false) := by
  have hlt : a.val < n := ZMod.val_lt a
  have hval : asNat (scalarGetB32 a) = a.val := asNat_ofNat (lt_of_lt_of_le hlt C.order_le)
  rw [scalarSetB32, hval, ZMod.natCast_zmod_val, decide_eq_false (Nat.not_le.mpr hlt)]

/-! ## Points -/

/-- `secp256k1_ecmult`: a multiple of a point and one of the generator. -/
def ecmult [Module (ZMod n) E] (a : E) (na ng : ZMod n) : E := na • a + ng • C.G

/-- `secp256k1_ecmult_gen`. -/
def ecmultGen [Module (ZMod n) E] (gn : ZMod n) : E := gn • C.G

/-- `secp256k1_eckey_pubkey_serialize` in compressed form. -/
def pubkeySerialize (elem : E) : Bytes := (if C.isOdd elem then 0x03 else 0x02) :: (C.x elem).1

/-- `secp256k1_rangeproof_serialize_point`. -/
def serializePoint (point : E) : Bytes := (if C.isQuad point then 0 else 1) :: (C.x point).1

@[simp] theorem length_serializePoint (point : E) : (C.serializePoint point).length = 33 := by
  simp [serializePoint, (C.x point).2]

/-- A point that is read from its coordinate is negated when its flag is set. -/
theorem setXquad_serializePoint {point : E} (h : point ≠ 0) :
    (if (C.serializePoint point).head? = some 1 then -C.setXquad (C.serializePoint point).tail
      else C.setXquad (C.serializePoint point).tail) = point := by
  have hx : (C.serializePoint point).tail = (C.x point).1 := rfl
  rw [hx, C.setXquad_x point h]
  cases hquad : C.isQuad point <;> simp [serializePoint, hquad]

/-! ## Hashes -/

/-- `secp256k1_hmac_sha256`: `initialize` with a key, `write` and `finalize`. -/
def hmacSha256 (key data : Bytes) : Bytes :=
  let rkey := if key.length ≤ 64 then key ++ List.replicate (64 - key.length) 0
    else (C.sha256 key).1 ++ List.replicate 32 0
  let inner := C.sha256 (rkey.map (· ^^^ 0x36) ++ data)
  (C.sha256 (rkey.map (· ^^^ 0x5c) ++ inner.1)).1

@[simp] theorem length_hmacSha256 (key data : Bytes) : (C.hmacSha256 key data).length = 32 :=
  (C.sha256 _).2

/-- `secp256k1_rfc6979_hmac_sha256_t`. -/
structure Rfc6979 where
  v : Bytes
  k : Bytes
  retry : Bool
deriving DecidableEq

/-- `secp256k1_rfc6979_hmac_sha256_initialize`. -/
def rfc6979Initialize (key : Bytes) : Rfc6979 :=
  let v := List.replicate 32 0x01
  let k := List.replicate 32 0x00
  let k := C.hmacSha256 k (v ++ [0x00] ++ key)
  let v := C.hmacSha256 k v
  let k := C.hmacSha256 k (v ++ [0x01] ++ key)
  let v := C.hmacSha256 k v
  { v, k, retry := false }

/-- `secp256k1_rfc6979_hmac_sha256_generate` of 32 bytes. -/
def rfc6979Generate (rng : Rfc6979) : Bytes × Rfc6979 :=
  let k := if rng.retry then C.hmacSha256 rng.k (rng.v ++ [0x00]) else rng.k
  let v := if rng.retry then C.hmacSha256 k rng.v else rng.v
  let v := C.hmacSha256 k v
  (v, { v, k, retry := true })

@[simp] theorem length_rfc6979Generate (rng : Rfc6979) : (C.rfc6979Generate rng).1.length = 32 :=
  C.length_hmacSha256 _ _

/-! ## A curve to compute with -/

/-- The scalars as a group, whose coordinates are absolute values, with numbers in the place of hashes. -/
def scalarCurve (n : ℕ) [NeZero n] (h : n ≤ 256 ^ 32) : Curve n (ZMod n) where
  order_le := h
  G := 1
  x p := ⟨ofNat 32 p.valMinAbs.natAbs, length_ofNat 32 _⟩
  isQuad p := decide (p.val ≤ n / 2)
  isOdd _ := false
  setXquad b := asNat b
  sha256 b := ⟨ofNat 32 (asNat b + 1), length_ofNat 32 _⟩
  setXquad_x p _ := by
    have hle := ZMod.natAbs_valMinAbs_le p
    have hpos : 0 < n := Nat.pos_of_neZero n
    rw [asNat_ofNat (by omega), ZMod.natCast_natAbs_valMinAbs]
    simp only [decide_eq_true_eq]

/-- A prime just above half of the numbers of 32 bytes. -/
abbrev order : ℕ := 59818374225136979862372120185152249271855294812620955446165099550962935136257

theorem prime_order : Nat.Prime order := by
  have hpred : order - 1 = 23 ^ 2 * 2 ^ 246 := by norm_num
  refine lucas_primality _ 3 (by norm_num; reduce_mod_char) fun q hq hdvd => ?_
  rw [hpred] at hdvd
  have hcases : q = 23 ∨ q = 2 := by
    rcases (Nat.Prime.dvd_mul hq).mp hdvd with h | h
    · exact .inl ((Nat.prime_dvd_prime_iff_eq hq (by norm_num)).mp (hq.dvd_of_dvd_pow h))
    · exact .inr ((Nat.prime_dvd_prime_iff_eq hq (by norm_num)).mp (hq.dvd_of_dvd_pow h))
  rcases hcases with rfl | rfl
  · norm_num
    reduce_mod_char
    decide
  · norm_num
    reduce_mod_char
    decide

instance : Fact (Nat.Prime order) := ⟨prime_order⟩

/-- A curve of that order. -/
def orderCurve : Curve order (ZMod order) := scalarCurve order (by decide)

end Curve

end GrinDotnet
