import Mathlib.Data.List.Basic
import GrinDotnet.Common.HexUtil

/-!
# The secp256k1 proxy

The C# layer over the native library: keys, commitments, range proofs and signatures. The curve
itself is the parameter `Native`, one function for each native entry point the wallet and the core
call. Scalars are not a parameter: key validity, the tweak and the blinding sum are the library's
own loops over numbers modulo the group order.
-/

namespace GrinDotnet

open BigEndian

/-- `Constants.MaxProofSize`: the size of the buffer a range proof is written into. -/
def maxProofSize : ℕ := 5134

/-- The native library. A function that can fail returns `none` where the C function returns 0. -/
structure Native where
  /-- The order of the group. -/
  order : ℕ
  one_lt_order : 1 < order
  order_le : order ≤ 256 ^ 32
  /-- `secp256k1_pedersen_commit` of a blinding factor and a value. -/
  pedersenCommit : Fixed 32 → UInt64 → Option (Fixed 33)
  /-- `secp256k1_switch_commit` of a blinding factor. -/
  switchCommit : Fixed 32 → Option (Fixed 33)
  /-- `secp256k1_pedersen_commit_sum` of positive and negative commitments. -/
  pedersenCommitSum : List (Fixed 33) → List (Fixed 33) → Option (Fixed 33)
  /-- `secp256k1_rangeproof_sign` of minimum, commitment, blinding factor, nonce, value, message. -/
  rangeproofSign : UInt64 → Fixed 33 → Fixed 32 → Fixed 32 → UInt64 → Bytes →
    Option {proof : Bytes // proof.length ≤ maxProofSize}
  /-- `secp256k1_rangeproof_verify`: the proven range of a commitment under a proof of a length. -/
  rangeproofVerify : Fixed 33 → Bytes → ℕ → Option (UInt64 × UInt64)
  ecPubkeyCreate : Fixed 32 → Option (Fixed 64)
  /-- `secp256k1_ec_pubkey_serialize` in compressed form. -/
  ecPubkeySerialize : Fixed 64 → Option Bytes
  ecPubkeyParse : Bytes → Option (Fixed 64)
  ecdsaSign : Fixed 32 → Fixed 32 → Option (Fixed 64)
  /-- `secp256k1_ecdsa_verify` of signature, message and public key. -/
  ecdsaVerify : Fixed 64 → Fixed 32 → Fixed 64 → Bool
  ecdsaSignatureSerializeDer : Fixed 64 → Option Bytes
  ecdsaSignatureParseDer : Bytes → Option (Fixed 64)

namespace Native

variable (N : Native)

/-- `secp256k1_ec_seckey_verify`: no overflow, and not zero. -/
def ecSeckeyVerify (seckey : Fixed 32) : Bool :=
  decide (asNat seckey.1 < N.order) && decide (asNat seckey.1 ≠ 0)

/-- `secp256k1_ec_privkey_tweak_add`: the sum modulo the order, refused when it is zero. -/
def ecPrivkeyTweakAdd (seckey tweak : Fixed 32) : Option (Fixed 32) :=
  let sum := (asNat seckey.1 + asNat tweak.1) % N.order
  if N.order ≤ asNat tweak.1 ∨ sum = 0 then none else some (fixedOfNat 32 sum)

/-- The loop of `secp256k1_pedersen_blind_sum`: the first `npositive` keys count positively. -/
def blindSumLoop : List (Fixed 32) → ℕ → ℕ → Option ℕ
  | [], _, acc => some acc
  | blind :: blinds, npositive, acc =>
    let x := asNat blind.1
    if N.order ≤ x then none
    else
      match npositive with
      | 0 => blindSumLoop blinds 0 ((acc + (N.order - x) % N.order) % N.order)
      | k + 1 => blindSumLoop blinds k ((acc + x) % N.order)

/-- `secp256k1_pedersen_blind_sum`. -/
def pedersenBlindSum (blinds : List (Fixed 32)) (npositive : ℕ) : Option (Fixed 32) :=
  (N.blindSumLoop blinds npositive 0).map (fixedOfNat 32)

end Native

variable {N : Native}

/-! ## Keys -/

/-- `SecretKey`: a key its constructor has verified. -/
structure SecretKey (N : Native) where
  value : Fixed 32
  valid : N.ecSeckeyVerify value = true
deriving DecidableEq

namespace SecretKey

/-- The number a key denotes. -/
def scalar (key : SecretKey N) : ℕ := asNat key.value.1

theorem scalar_lt (key : SecretKey N) : key.scalar < N.order := by
  have h := key.valid
  simp only [Native.ecSeckeyVerify, Bool.and_eq_true, decide_eq_true_eq] at h
  exact h.1

theorem scalar_ne_zero (key : SecretKey N) : key.scalar ≠ 0 := by
  have h := key.valid
  simp only [Native.ecSeckeyVerify, Bool.and_eq_true, decide_eq_true_eq] at h
  exact h.2

/-- `SecretKey.From_slice`. -/
def fromSlice (N : Native) (data : Bytes) : Except Exn (SecretKey N) :=
  if hlen : data.length = 32 then
    if hvalid : N.ecSeckeyVerify ⟨data, hlen⟩ = true then .ok ⟨⟨data, hlen⟩, hvalid⟩
    else .error (.exception "InvalidSecretKey")
  else .error (.exception "InvalidSecretKey")

theorem fromSlice_value (key : SecretKey N) : fromSlice N key.value.1 = .ok key := by
  have hlen : key.value.1.length = 32 := key.value.2
  have hvalid : N.ecSeckeyVerify ⟨key.value.1, hlen⟩ = true := key.valid
  simp [fromSlice, hlen, hvalid]

/-- Zero is no key. -/
theorem fromSlice_of_zero {data : Fixed 32} (h : asNat data.1 = 0) :
    fromSlice N data.1 = .error (.exception "InvalidSecretKey") := by
  have hinvalid : N.ecSeckeyVerify data ≠ true := by
    unfold Native.ecSeckeyVerify
    rw [h]
    simp
  unfold fromSlice
  rw [dif_pos data.2, dif_neg hinvalid]

theorem tweakAdd_valid {a b c : Fixed 32} (h : N.ecPrivkeyTweakAdd a b = some c) :
    N.ecSeckeyVerify c = true := by
  simp only [Native.ecPrivkeyTweakAdd] at h
  split at h
  · cases h
  · next hne =>
    obtain rfl := Option.some.inj h
    have hpos : 0 < N.order := lt_trans one_pos N.one_lt_order
    have hlt : (asNat a.1 + asNat b.1) % N.order < N.order := Nat.mod_lt _ hpos
    have hval : asNat (ofNat 32 ((asNat a.1 + asNat b.1) % N.order))
        = (asNat a.1 + asNat b.1) % N.order := asNat_ofNat (lt_of_lt_of_le hlt N.order_le)
    simp only [Native.ecSeckeyVerify, fixedOfNat, hval, Bool.and_eq_true, decide_eq_true_eq]
    exact ⟨hlt, fun hz => hne (.inr hz)⟩

/-- `SecretKey.Add_assign`, returning the sum it stores. -/
def addAssign (key other : SecretKey N) : Except Exn (SecretKey N) :=
  match h : N.ecPrivkeyTweakAdd key.value other.value with
  | some sum => .ok ⟨sum, tweakAdd_valid h⟩
  | none => .error (.exception "InvalidSecretKey")

end SecretKey

/-- `PublicKey`: the library's internal 64 bytes. -/
structure PublicKey where
  value : Fixed 64
deriving DecidableEq

/-- `ContextFlag`: what a context may be used for. -/
inductive ContextFlag
  | none
  | signOnly
  | verifyOnly
  | full
  | commit
deriving DecidableEq, Repr

/-- `Secp256K1`: a context, of which the C# code looks at the capabilities. -/
structure Secp256K1 where
  caps : ContextFlag
deriving DecidableEq, Repr

/-- `Secp256K1.WithCaps`. -/
def Secp256K1.withCaps (caps : ContextFlag) : Secp256K1 := ⟨caps⟩

theorem Secp256K1.caps_withCaps (caps : ContextFlag) : (withCaps caps).caps = caps := rfl

/-- A context may sign unless it can only verify or do nothing. -/
def Secp256K1.canSign (self : Secp256K1) : Bool :=
  self.caps ≠ .verifyOnly ∧ self.caps ≠ .none

/-- A context may verify unless it can only sign or do nothing. -/
def Secp256K1.canVerify (self : Secp256K1) : Bool :=
  self.caps ≠ .signOnly ∧ self.caps ≠ .none

namespace PublicKey

/-- `PublicKey.is_valid`: not all bytes are zero. -/
def isValid (key : PublicKey) : Bool := key.value.1.any (· ≠ 0)

/-- `PublicKey.from_slice`. -/
def fromSlice (N : Native) (data : Bytes) : Except Exn PublicKey :=
  match N.ecPubkeyParse data with
  | some key => .ok ⟨key⟩
  | none => .error (.exception "InvalidPublicKey")

/-- `PublicKey.from_secret_key`. -/
def fromSecretKey (secp : Secp256K1) (key : SecretKey N) : Except Exn PublicKey :=
  if secp.canSign then
    match N.ecPubkeyCreate key.value with
    | some pk => .ok ⟨pk⟩
    | none => .error (.exception "Should never happen!")
  else .error (.exception "IncapableContext")

/-- `PublicKey.serialize_vec` in compressed form. -/
def serializeVec (N : Native) (key : PublicKey) : Except Exn Bytes :=
  match N.ecPubkeySerialize key.value with
  | some bytes => .ok bytes
  | none => .error (.exception "This should never happen!")

end PublicKey

/-! ## Commitments -/

/-- `Commitment`: the 33 bytes of a Pedersen commitment. -/
structure Commitment where
  value : Fixed 33
deriving DecidableEq

namespace Commitment

/-- `Commitment.Hex`. -/
def hex (c : Commitment) : String := toHex c.value.1

theorem hex_injective {c d : Commitment} (h : c.hex = d.hex) : c = d := by
  cases c
  cases d
  exact congrArg Commitment.mk (Subtype.ext (toHex_injective h))

/-- `Commitment.from_vec`: completed by zeroes when too short, truncated when too long. -/
def fromVec (v : Bytes) : Commitment :=
  ⟨⟨(v ++ List.replicate 33 0).take 33, by simp⟩⟩

theorem fromVec_value (c : Commitment) : fromVec c.value.1 = c := by
  obtain ⟨⟨v, hv⟩⟩ := c
  refine congrArg Commitment.mk (Subtype.ext ?_)
  show (v ++ List.replicate 33 0).take 33 = v
  rw [← hv, List.take_left']
  rfl

/-- `Commitment.to_two_pubkeys`: the commitment's coordinate under both parity tags. -/
def toTwoPubkeys (N : Native) (c : Commitment) : Except Exn (PublicKey × PublicKey) := do
  let pk1 ← PublicKey.fromSlice N (0x02 :: c.value.1.tail)
  let pk2 ← PublicKey.fromSlice N (0x03 :: c.value.1.tail)
  return (pk1, pk2)

end Commitment

/-- `RangeProof`: the proof's bytes and their length. -/
structure RangeProof where
  proof : Bytes
  plen : ℕ
deriving DecidableEq

/-- `Message`: the 32 bytes that are signed. -/
structure Message where
  value : Fixed 32
deriving DecidableEq

/-- `Message.from_slice`. -/
def Message.fromSlice (data : Bytes) : Except Exn Message :=
  if h : data.length = 32 then .ok ⟨⟨data, h⟩⟩ else .error (.exception "InvalidMessage")

/-- `Signiture`: the library's internal 64 bytes. -/
structure Signiture where
  value : Fixed 64
deriving DecidableEq

namespace Signiture

/-- `Signiture.from_der`. -/
def fromDer (N : Native) (data : Bytes) : Except Exn Signiture :=
  match N.ecdsaSignatureParseDer data with
  | some sig => .ok ⟨sig⟩
  | none => .error (.exception "InvalidSignature")

/-- `Signiture.serialize_der`. -/
def serializeDer (N : Native) (sig : Signiture) : Except Exn Bytes :=
  match N.ecdsaSignatureSerializeDer sig.value with
  | some bytes => .ok bytes
  | none => .error (.exception "Should never happen!")

end Signiture

/-- `ProofMessage.Empty`: `Constants.MessageSize` zeroes. -/
def ProofMessage.empty : Bytes := List.replicate 32 0

namespace Secp256K1

/-- `Commit`. The native result is not looked at: a failure leaves the zeroed buffer. -/
def commit (self : Secp256K1) (value : UInt64) (blind : SecretKey N) : Except Exn Commitment :=
  if self.caps = .commit then .ok ⟨(N.pedersenCommit blind.value value).getD (zeros 33)⟩
  else .error (.exception "IncapableContext")

/-- `commit_value`: a commitment under the zero blinding factor. -/
def commitValue (N : Native) (self : Secp256K1) (value : UInt64) : Except Exn Commitment :=
  if self.caps = .commit then .ok ⟨(N.pedersenCommit (zeros 32) value).getD (zeros 33)⟩
  else .error (.exception "IncapableContext")

/-- `switch_commit`. -/
def switchCommit (self : Secp256K1) (blind : SecretKey N) : Except Exn Commitment :=
  if self.caps = .commit then .ok ⟨(N.switchCommit blind.value).getD (zeros 33)⟩
  else .error (.exception "IncapableContext")

/-- `commit_sum`: it checks no capability. -/
def commitSum (N : Native) (positive negative : List Commitment) : Except Exn Commitment :=
  match N.pedersenCommitSum (positive.map (·.value)) (negative.map (·.value)) with
  | some sum => .ok ⟨sum⟩
  | none => .error (.exception "IncorrectCommitSum")

/-- `blind_sum`: the sum of the positive keys less the negative ones, as a verified key. -/
def blindSum (positive negative : List (SecretKey N)) : Except Exn (SecretKey N) :=
  match N.pedersenBlindSum ((positive ++ negative).map (·.value)) positive.length with
  | some sum => SecretKey.fromSlice N sum.1
  | none => .error (.exception "This should never happen!")

/-- `range_proof`. A failing call is made once more, and a second failure leaves the buffer. -/
def rangeProof (min value : UInt64) (blind : SecretKey N) (commit : Commitment) (message : Bytes) :
    RangeProof :=
  match N.rangeproofSign min commit.value blind.value blind.value value message with
  | some proof => ⟨proof.1, proof.1.length⟩
  | none => ⟨List.replicate maxProofSize 0, maxProofSize⟩

/-- `verify_range_proof`. -/
def verifyRangeProof (N : Native) (commit : Commitment) (proof : RangeProof) :
    Except Exn (UInt64 × UInt64) :=
  match N.rangeproofVerify commit.value proof.proof proof.plen with
  | some range => .ok range
  | none => .error (.exception "InvalidRangeProof")

/-- `Sign`. -/
def sign (self : Secp256K1) (msg : Message) (key : SecretKey N) : Except Exn Signiture :=
  if self.canSign then
    match N.ecdsaSign msg.value key.value with
    | some sig => .ok ⟨sig⟩
    | none => .error (.exception "This should never happen!")
  else .error (.exception "IncapableContext")

/-- `Verify`. -/
def verify (N : Native) (self : Secp256K1) (msg : Message) (sig : Signiture) (key : PublicKey) :
    Except Exn Unit :=
  if ¬self.canVerify then .error (.exception "IncapableContext")
  else if ¬key.isValid then .error (.exception "InvalidPublicKey")
  else if N.ecdsaVerify sig.value msg.value key.value then .ok ()
  else .error (.exception "IncorrectSignature")

/-- `verify_from_commit`: the signature has to verify under one of the two candidate keys. -/
def verifyFromCommit (N : Native) (self : Secp256K1) (msg : Message) (sig : Signiture)
    (commit : Commitment) : Except Exn Unit :=
  if self.caps = .commit then do
    let pubkeys ← commit.toTwoPubkeys N
    match self.verify N msg sig pubkeys.1 with
    | .ok () => .ok ()
    | .error _ => self.verify N msg sig pubkeys.2
  else .error (.exception "IncapableContext")

end Secp256K1

end GrinDotnet
