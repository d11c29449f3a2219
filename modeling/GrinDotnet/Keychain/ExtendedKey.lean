import GrinDotnet.Secp.Native
import GrinDotnet.Lib.Dictionary
import GrinDotnet.Lib.Outcome

/-!
# Extended keys

Identifiers and hierarchical derivation. `Env` collects the packages the code is linked against: the
native curve library, the keyed hash `HMACBlake2B` and the runtime's culture-dependent string
comparisons.
-/

namespace GrinDotnet

open BigEndian Outcome

/-- The code's dependencies. -/
structure Env where
  secp : Native
  /-- `HMACBlake2B`: key, hash size in bytes, message. -/
  hmacBlake2B : Option Bytes → (size : ℕ) → Bytes → Fixed size
  /-- The runtime's default string comparison, `true` when the first string is not the greater. -/
  stringLe : String → String → Bool
  /-- The runtime's default `StartsWith`: the string and the prefix. -/
  stringStartsWith : String → String → Bool

/-- The runtime's string comparison is total and transitive. -/
structure Env.Ordered (env : Env) : Prop where
  total : ∀ a b, env.stringLe a b = true ∨ env.stringLe b a = true
  trans : ∀ a b c, env.stringLe a b = true → env.stringLe b c = true → env.stringLe a c = true

/-- `Identifier`: a short digest of a public key. -/
structure Identifier where
  value : Bytes
deriving DecidableEq

namespace Identifier

/-- `Identifier.IdentifierSize`. -/
def identifierSize : ℕ := 10

/-- `Identifier.HexValue`. -/
def hexValue (id : Identifier) : String := toHex id.value

theorem hexValue_injective {a b : Identifier} (h : a.hexValue = b.hexValue) : a = b := by
  cases a
  cases b
  exact congrArg Identifier.mk (toHex_injective h)

/-- `Identifier.Zero`. -/
def zero : Identifier := ⟨List.replicate identifierSize 0⟩

/-- `Identifier.From_bytes`: at most the first ten bytes. -/
def fromBytes (bytes : Bytes) : Identifier := ⟨bytes.take identifierSize⟩

/-- `Identifier.From_hex`. -/
def fromHex (hex : String) : Except Exn Identifier := do
  let bytes ← GrinDotnet.fromHex hex
  return fromBytes bytes

/-- An identifier of the right size is read back from its hex. -/
theorem fromHex_hexValue {id : Identifier} (h : id.value.length ≤ identifierSize) :
    fromHex id.hexValue = .ok id := by
  rw [fromHex, hexValue, fromHex_toHex, ok_bind, fromBytes, List.take_of_length_le h]
  rfl

/-- `Identifier.From_key_id`: the hash of the compressed public key. -/
def fromKeyId (env : Env) (pubKey : PublicKey) : Except Exn Identifier := do
  let bytes ← pubKey.serializeVec env.secp
  return ⟨(env.hmacBlake2B none identifierSize bytes).1⟩

end Identifier

/-- `ExtendedKey`: a secret key from which further keys are derived. -/
structure ExtendedKey (N : Native) where
  depth : UInt8
  nChild : UInt32
  rootKeyId : Identifier
  chaincode : Bytes
  key : SecretKey N
deriving DecidableEq

namespace ExtendedKey

variable (env : Env)

/-- `ExtendedKey.Identifier`. -/
def identifier (secp : Secp256K1) (self : ExtendedKey env.secp) : Except Exn Identifier := do
  let keyId ← PublicKey.fromSecretKey secp self.key
  Identifier.fromKeyId env keyId

/-- The key `HMACBlake2B` is given for a master key. -/
def mimbleSeed : Bytes := [0x4d, 0x69, 0x6d, 0x62, 0x6c, 0x65, 0x20, 0x73, 0x65, 0x65, 0x64]

/-- `ExtendedKey.from_seed`: the master key of a seed. -/
def fromSeed (secp : Secp256K1) (seed : Bytes) : Except Exn (ExtendedKey env.secp) :=
  if seed.length = 16 ∨ seed.length = 32 ∨ seed.length = 64 then do
    let derived := env.hmacBlake2B (some mimbleSeed) 64 seed
    let secretKey ← SecretKey.fromSlice env.secp (derived.1.take 32)
    let ext : ExtendedKey env.secp :=
      { depth := 0
        nChild := 0
        rootKeyId := Identifier.zero
        chaincode := derived.1.drop 32
        key := secretKey }
    let rootKeyId ← identifier env secp ext
    return { ext with rootKeyId }
  else .error (.exception "InvalidSeedSize")

/-- `ExtendedKey.Derive`: the child key of an index. -/
def derive (secp : Secp256K1) (self : ExtendedKey env.secp) (n : UInt32) :
    Except Exn (ExtendedKey env.secp) := do
  let seed := self.key.value.1 ++ ofNat 4 n.toNat
  let derived := env.hmacBlake2B (some self.chaincode) 64 seed
  let secretKey ← SecretKey.fromSlice env.secp (derived.1.take 32)
  let sum ← secretKey.addAssign self.key
  let rootKeyId ← identifier env secp self
  return {
    depth := self.depth + 1
    nChild := n
    rootKeyId
    chaincode := (derived.1.drop 32).take 32
    key := sum }

/-- A child key and its identifier. -/
def deriveIdent (secp : Secp256K1) (self : ExtendedKey env.secp) (n : UInt32) :
    Except Exn (ExtendedKey env.secp × Identifier) := do
  let child ← derive env secp self n
  let ident ← identifier env secp child
  return (child, ident)

variable {env}

/-- A derived key is a step deeper, carries its index, and has the identifier of the key it comes
from. -/
theorem fields_of_derive {secp : Secp256K1} {self child : ExtendedKey env.secp} {n : UInt32}
    (h : derive env secp self n = .ok child) :
    child.depth = self.depth + 1 ∧ child.nChild = n ∧
      identifier env secp self = .ok child.rootKeyId := by
  obtain ⟨secretKey, -, h⟩ := bind_eq_ok.mp h
  obtain ⟨sum, -, h⟩ := bind_eq_ok.mp h
  obtain ⟨rootKeyId, hroot, h⟩ := bind_eq_ok.mp h
  cases h
  exact ⟨rfl, rfl, hroot⟩

theorem nChild_of_derive {secp : Secp256K1} {self child : ExtendedKey env.secp} {n : UInt32}
    (h : derive env secp self n = .ok child) : child.nChild = n := (fields_of_derive h).2.1

theorem deriveIdent_eq_ok {secp : Secp256K1} {self child : ExtendedKey env.secp} {n : UInt32}
    {ident : Identifier} :
    deriveIdent env secp self n = .ok (child, ident) ↔
      derive env secp self n = .ok child ∧ identifier env secp child = .ok ident := by
  constructor
  · intro h
    obtain ⟨c, hc, h⟩ := bind_eq_ok.mp h
    obtain ⟨i, hi, h⟩ := bind_eq_ok.mp h
    cases h
    exact ⟨hc, hi⟩
  · rintro ⟨hc, hi⟩
    simp [deriveIdent, hc, hi]

/-- An identifier of a key has the right size. -/
theorem length_of_identifier {secp : Secp256K1} {self : ExtendedKey env.secp} {ident : Identifier}
    (h : identifier env secp self = .ok ident) :
    ident.value.length = Identifier.identifierSize := by
  obtain ⟨pubKey, -, h⟩ := bind_eq_ok.mp h
  obtain ⟨bytes, -, h⟩ := bind_eq_ok.mp h
  cases h
  exact (env.hmacBlake2B none Identifier.identifierSize bytes).2

end ExtendedKey

end GrinDotnet
