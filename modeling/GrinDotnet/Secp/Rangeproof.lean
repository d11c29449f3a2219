import Mathlib.Data.List.GetD
import Mathlib.Tactic.Abel
import GrinDotnet.Lib.FlagBytes
import GrinDotnet.Secp.Borromean
import GrinDotnet.Secp.RangeproofParams

/-!
# Range proofs

`secp256k1_rangeproof_sign_impl` and `secp256k1_rangeproof_verify_impl`. A value is committed to digit by
digit, and a ring signature shows that every digit is one of its base. The last digit's commitment is not
sent: it is what the others leave of the commitment to the value.

Results:
1. `rangeproof_accepted`: a proof is accepted, for a range that has the value.
-/

namespace GrinDotnet

open BigEndian

namespace Rangeproof

variable {n : ℕ} {E : Type*} [AddCommGroup E] [Module (ZMod n) E] [DecidableEq E] (C : Curve n E)

/-! ## The points of the digits -/

/-- `secp256k1_pedersen_ecmult`. -/
def pedersenEcmult (sec : ZMod n) (value : UInt64) (genp : E) : E := C.ecmultGen sec + value.toNat • genp

/-- The multiplication by ten in `secp256k1_rangeproof_pub_expand`. -/
def tenTimes (base : E) : E :=
  let tmp := base + base
  let base := tmp + tmp
  let base := base + base
  base + tmp

/-- The points of a ring: every one is the last one and the base. -/
def expandRing (base : E) : ℕ → E → List E
  | 0, _ => []
  | left + 1, pub => pub :: expandRing base left (pub + base)

/-- The points of all rings, from the first one of each. The base grows by a factor of four. -/
def expandRings : E → List E → List ℕ → List E
  | base, pub :: pubs, rsize :: rsizes =>
    let double := base + base
    expandRing base rsize pub ++ expandRings (double + double) pubs rsizes
  | _, _, _ => []

/-- `secp256k1_rangeproof_pub_expand`. -/
def pubExpand (firsts : List E) (exp : ℕ) (rsizes : List ℕ) (genp : E) : List E :=
  expandRings (tenTimes^[exp] (-genp)) firsts rsizes

/-! ## The prover's random values -/

/-- The loop that draws a secret until it is one. -/
def drawSecret : ℕ → Curve.Rfc6979 → Option (ZMod n × Curve.Rfc6979)
  | 0, _ => none
  | fuel + 1, rng =>
    let (tmp, rng) := C.rfc6979Generate rng
    let (sec, overflow) := Curve.scalarSetB32 n tmp
    if overflow ∨ sec = 0 then drawSecret fuel rng else some (sec, rng)

/-- The blocks of a ring, each combined with its part of the message. -/
def drawBlocks (message : ℕ → UInt8) (i : ℕ) : ℕ → ℕ → Curve.Rfc6979 → List Bytes × Curve.Rfc6979
  | 0, _, rng => ([], rng)
  | left + 1, j, rng =>
    let (tmp, rng) := C.rfc6979Generate rng
    let tmp := tmp.mapIdx fun b t => t ^^^ message ((i * 4 + j) * 32 + b)
    let (blocks, rng) := drawBlocks message i left (j + 1) rng
    (tmp :: blocks, rng)

/-- The secret of a ring, and the sum with it. -/
def drawDigit (fuel : ℕ) (drawn : Bool) (acc : ZMod n) (rng : Curve.Rfc6979) :
    Option (ZMod n × ZMod n × Curve.Rfc6979) :=
  if drawn then
    let (_, rng) := C.rfc6979Generate rng
    (drawSecret C fuel rng).map fun (sec, rng) => (sec, acc + sec, rng)
  else
    let acc := -acc
    some (acc, acc, rng)

/-- The loop over the rings: the secrets, of which the last one is what makes their sum zero, and the
blocks. -/
def genrandRings (fuel rings : ℕ) (message : ℕ → UInt8) :
    ℕ → ZMod n → Curve.Rfc6979 → List ℕ → Option (List (ZMod n) × List Bytes)
  | _, _, _, [] => some ([], [])
  | i, acc, rng, rsize :: rsizes => do
    let (sec, acc, rng) ← drawDigit C fuel (decide (i < rings - 1)) acc rng
    let (blocks, rng) := drawBlocks C message i rsize 0 rng
    let (secs, rest) ← genrandRings fuel rings message (i + 1) acc rng rsizes
    return (sec :: secs, blocks ++ rest)

/-- `secp256k1_rangeproof_genrand`: the secrets and the blocks that the responses are read from. -/
def genrand (fuel : ℕ) (message : ℕ → UInt8) (rsizes : List ℕ) (nonce : Bytes) (commit : E)
    (proof : Bytes) (genp : E) : Option (List (ZMod n) × List Bytes) :=
  let rngseed := nonce ++ C.serializePoint commit ++ C.serializePoint genp ++ proof
  genrandRings C fuel rsizes.length message 0 0 (C.rfc6979Initialize rngseed) rsizes

/-- The response of a block. -/
def responseAt (n : ℕ) (blocks : List Bytes) (j : ℕ) : ZMod n :=
  (Curve.scalarSetB32 n (blocks.getD j [])).1

/-- What `genrand` returns: every response is one. -/
def validBlocks (n : ℕ) (blocks : List Bytes) : Bool :=
  blocks.all fun tmp => !(Curve.scalarSetB32 n tmp).2 && decide ((Curve.scalarSetB32 n tmp).1 ≠ 0)

/-! ## The message -/

/-- Where the value is encoded in the last ring: in the last member, or in the one before it if that is
the secret one. -/
def encodingIdx (p : Params) : ℕ :=
  let idx := p.rsizes.getLastD 0 - 1
  let idx := if p.secidx (p.rings - 1) = idx then idx - 1 else idx
  ((p.rings - 1) * 4 + idx) * 32

/-- The bytes of the message, and those of the value with a mark in the first one. -/
def prepMessage (p : Params) (message : Bytes) (at' : ℕ) : UInt8 :=
  if p.rsizes.getLastD 0 > 1 ∧ encodingIdx p ≤ at' ∧ at' < encodingIdx p + 32 then
    let i := at' - encodingIdx p
    if i = 0 then 128 else if i < 8 then 0 else (ofNat 8 p.v.toNat).getD (i % 8) 0
  else message.getD at' 0

/-! ## Signing -/

/-- What a signer has made before it signs the rings. -/
structure Prepared (n : ℕ) (E : Type*) where
  params : Params
  /-- The blinding factors of the digits. -/
  secs : List (ZMod n)
  blocks : List Bytes
  /-- The commitments to the digits. -/
  firsts : List E

/-- The first part of `secp256k1_rangeproof_sign_impl`: the checks, the random values and the
commitments to the digits. -/
def prepare (fuel plen : ℕ) (minValue : UInt64) (commit : E) (blind nonce : Bytes) (exp minBits : ℤ)
    (value : UInt64) (message : Bytes) (genp : E) : Option (Prepared n E) :=
  if plen < 65 ∨ minValue > value ∨ minBits > 64 ∨ minBits < 0 ∨ exp < -1 ∨ exp > 18 then none
  else
    (proveParams minValue value exp minBits.toNat).bind fun p =>
      if message.length > 0 ∧ message.length > 128 * (p.rings - 1) then none
      else if plen - (header p).length < 32 * (p.npub + p.rings - 1) + 32 + (p.rings + 6) / 8 then none
      else
        (genrand C fuel (prepMessage p message) p.rsizes nonce commit (header p) genp).bind
          fun (secs, blocks) =>
            let (stmp, overflow) := Curve.scalarSetB32 n blind
            let last := secs.getLastD 0 + stmp
            let secs := secs.dropLast ++ [last]
            let firsts := secs.mapIdx fun i sec => pedersenEcmult C sec
              ((UInt64.ofNat (p.secidx i) * p.scale) <<< UInt64.ofNat (i * 2)) genp
            if validBlocks n blocks = false ∨ overflow ∨ last = 0 ∨ 0 ∈ firsts then none
            else some ⟨p, secs, blocks, firsts⟩

namespace Prepared

variable {C} (q : Prepared n E)

/-- The nonces of the secret members. -/
def nonces (i : ℕ) : ZMod n := responseAt n q.blocks (i * 4 + q.params.secidx i)

/-- The responses, without those of the secret members. -/
def responses : ℕ → ZMod n :=
  (List.range q.params.rings).foldl (fun s i => Function.update s (i * 4 + q.params.secidx i) 0)
    (responseAt n q.blocks)

/-- The points of all members. -/
def pubs (genp : E) : List E := pubExpand q.firsts q.params.exp q.params.rsizes genp

variable (C) in
/-- The points that are sent. -/
def sent : List Bytes := q.firsts.dropLast.map C.serializePoint

variable (C) in
/-- The message that the rings sign. -/
def digest (commit : E) (extraCommit : Bytes) (genp : E) : Bytes :=
  (C.sha256 (C.serializePoint commit ++ C.serializePoint genp ++ header q.params ++ (q.sent C).flatten ++
    extraCommit)).1

variable (C) in
/-- The bytes of the proof. -/
def proof (e0 : Bytes) (s : ℕ → ZMod n) : Bytes :=
  header q.params ++
    (FlagBytes.pack ((q.params.rings + 6) / 8) ((q.sent C).map (·.headD 0)) ++
      (((q.sent C).map List.tail).flatten ++
        (e0 ++ ((List.range q.params.rsizes.sum).map fun i => Curve.scalarGetB32 (s i)).flatten)))

end Prepared

/-- `secp256k1_rangeproof_sign_impl`: the proof, whose bytes go into a buffer of `plen`. -/
def signImpl (fuel plen : ℕ) (minValue : UInt64) (commit : E) (blind nonce : Bytes) (exp minBits : ℤ)
    (value : UInt64) (message extraCommit : Bytes) (genp : E) : Option Bytes :=
  (prepare C fuel plen minValue commit blind nonce exp minBits value message genp).bind fun q =>
    (C.borromeanSign (q.digest C commit extraCommit genp) q.responses (fun j => (q.pubs genp).getD j 0)
      q.nonces (fun i => q.secs.getD i 0) q.params.secidx q.params.rsizes).map fun (e0, s) =>
        q.proof C e0 s

/-! ## Verifying -/

/-- The bytes of a proof at an offset, in pieces of 32. -/
def pieces (proof : Bytes) (offset count : ℕ) : List Bytes :=
  (List.range count).map fun i => (proof.drop (offset + 32 * i)).take 32

/-- What a verifier has read before it looks at the rings. -/
structure Opened (n : ℕ) (E : Type*) where
  header : Header
  firsts : List E
  e0 : Bytes
  responses : List (ZMod n)
  digest : Bytes

/-- The rings of a proof. -/
def Opened.rsizes (o : Opened n E) : List ℕ := ringSizes o.header.mantissa

/-- The points of all members. -/
def Opened.pubs (o : Opened n E) (genp : E) : List E :=
  pubExpand o.firsts o.header.exp.toNat o.rsizes genp

/-- The first part of `secp256k1_rangeproof_verify_impl`: the header, the commitments to the digits and
the responses. -/
def openProof (commit : E) (proof extraCommit : Bytes) (genp : E) : Option (Opened n E) :=
  (getHeader proof).bind fun h =>
    let rsizes := ringSizes h.mantissa
    let rings := rsizes.length
    let npub := rsizes.sum
    if proof.length - h.offset < 32 * (npub + rings - 1) + 32 + (rings + 6) / 8 then none
    else
      let signs := (List.range (rings - 1)).map (FlagBytes.isSet (proof.drop h.offset))
      let offset := h.offset + (rings + 6) / 8
      if (rings - 1) % 8 ≠ 0 ∧ proof.getD (offset - 1) 0 >>> UInt8.ofNat ((rings - 1) % 8) ≠ 0 then none
      else
        let xs := pieces proof offset (rings - 1)
        let cs := List.zipWith (fun sign x => if sign then -C.setXquad x else C.setXquad x) signs xs
        let accj := cs.foldl (· + ·) (if h.minValue ≠ 0 then h.minValue.toNat • genp else 0)
        let last := -accj + commit
        let offset := offset + 32 * (rings - 1)
        let e0 := (proof.drop offset).take 32
        let offset := offset + 32
        let s := (pieces proof offset npub).map (Curve.scalarSetB32 n)
        if last = 0 ∨ (∃ r ∈ s, r.2 = true) ∨ offset + 32 * npub ≠ proof.length then none
        else some {
          header := h
          firsts := cs ++ [last]
          e0
          responses := s.map (·.1)
          digest := (C.sha256 (C.serializePoint commit ++ C.serializePoint genp ++ proof.take h.offset ++
            (List.zipWith (fun sign x => (if sign then 1 else 0) :: x) signs xs).flatten ++
            extraCommit)).1 }

/-- The rings of a proof that was read: the challenges. -/
def Opened.verify (o : Opened n E) (genp : E) : Option (List (ZMod n)) :=
  C.borromeanVerify o.digest (fun j => o.responses.getD j 0) (fun j => (o.pubs genp).getD j 0) o.e0 o.rsizes

/-- `secp256k1_rangeproof_verify_impl` without a nonce: the range of the proof. -/
def verifyImpl (commit : E) (proof extraCommit : Bytes) (genp : E) : Option (UInt64 × UInt64) :=
  (openProof C commit proof extraCommit genp).bind fun o =>
    (o.verify C genp).map fun _ => (o.header.minValue, o.header.maxValue)

/-! ## The points of the digits -/

omit [DecidableEq E] [Module (ZMod n) E] in
theorem tenTimes_iterate (e : ℕ) (base : E) : tenTimes^[e] base = 10 ^ e • base := by
  have hten : ∀ b : E, tenTimes b = 10 • b := fun b => by
    unfold tenTimes
    module
  induction e with
  | zero => simp
  | succ e ih => rw [Function.iterate_succ_apply', ih, hten, pow_succ', mul_smul]

omit [DecidableEq E] [Module (ZMod n) E] in
theorem length_expandRing (base : E) (left : ℕ) (pub : E) : (expandRing base left pub).length = left := by
  induction left generalizing pub with
  | zero => rfl
  | succ left ih => rw [expandRing, List.length_cons, ih]

omit [DecidableEq E] [Module (ZMod n) E] in
theorem getD_expandRing {base pub : E} {left j : ℕ} (h : j < left) :
    (expandRing base left pub).getD j 0 = pub + j • base := by
  induction left generalizing pub j with
  | zero => omega
  | succ left ih =>
    cases j with
    | zero => simp [expandRing]
    | succ j =>
      rw [expandRing, List.getD_cons_succ, ih (by omega)]
      module

variable {C}

omit [DecidableEq E] in
/-- The members with the digits have the points of their secrets. -/
theorem secrets_expandRings {sec : ℕ → ZMod n} {secidx : ℕ → ℕ} {base : E} {firsts : List E}
    {rsizes : List ℕ} (pre : List E) {i : ℕ} (hlen : firsts.length = rsizes.length)
    (h : ∀ l (hl : l < rsizes.length), secidx (i + l) < rsizes[l] ∧
      firsts.getD l 0 + (secidx (i + l) * 4 ^ l) • base = sec (i + l) • C.G) :
    C.Secrets (fun j => (pre ++ expandRings base firsts rsizes).getD j 0) sec secidx i pre.length rsizes := by
  induction rsizes generalizing pre i base firsts with
  | nil => trivial
  | cons rsize rsizes ih =>
    cases firsts with
    | nil => simp at hlen
    | cons first firsts =>
      obtain ⟨hidx, hpoint⟩ := h 0 (Nat.zero_lt_succ _)
      simp only [Nat.add_zero, List.getElem_cons_zero] at hidx
      simp only [List.getD_cons_zero, Nat.add_zero, pow_zero, mul_one] at hpoint
      have hlater : C.Secrets (fun j => (pre ++ expandRing base rsize first ++
          expandRings (base + base + (base + base)) firsts rsizes).getD j 0) sec secidx (i + 1)
          (pre ++ expandRing base rsize first).length rsizes := ih _ (by simpa using hlen) fun l hl => by
        obtain ⟨hidx, hpoint⟩ := h (l + 1) (Nat.succ_lt_succ hl)
        have hi : i + 1 + l = i + (l + 1) := by omega
        rw [hi]
        refine ⟨by simpa using hidx, ?_⟩
        rw [← hpoint, List.getD_cons_succ, pow_succ]
        module
      rw [List.append_assoc, List.length_append, length_expandRing] at hlater
      refine ⟨hidx, ?_, hlater⟩
      simp only
      rw [List.getD_append_right _ _ _ _ (Nat.le_add_right ..), Nat.add_sub_cancel_left, expandRings,
        List.getD_append _ _ _ _ (by rwa [length_expandRing]), getD_expandRing hidx, hpoint]

/-! ## The random values -/

omit [Module (ZMod n) E] [DecidableEq E] in
theorem length_drawBlocks (message : ℕ → UInt8) (i left j : ℕ) (rng : Curve.Rfc6979) :
    (drawBlocks C message i left j rng).1.length = left ∧
      ∀ b ∈ (drawBlocks C message i left j rng).1, b.length = 32 := by
  induction left generalizing j rng with
  | zero => exact ⟨rfl, fun b hb => absurd hb List.not_mem_nil⟩
  | succ left ih =>
    obtain ⟨hlen, hblocks⟩ := ih (j + 1) (C.rfc6979Generate rng).2
    refine ⟨by simpa [drawBlocks] using hlen, fun b hb => ?_⟩
    rcases List.mem_cons.mp hb with rfl | hb
    · rw [List.length_mapIdx]
      exact C.length_rfc6979Generate rng
    · exact hblocks b hb

omit [Module (ZMod n) E] [DecidableEq E] in
/-- The last secret makes the sum zero, and there is a block for every member. -/
theorem genrandRings_spec {fuel rings i : ℕ} {message : ℕ → UInt8} {acc : ZMod n} {rng : Curve.Rfc6979}
    {rsizes : List ℕ} {secs : List (ZMod n)} {blocks : List Bytes} (hrings : i + rsizes.length = rings)
    (hne : rsizes ≠ []) (h : genrandRings C fuel rings message i acc rng rsizes = some (secs, blocks)) :
    (∃ drawn, secs = drawn ++ [-(acc + drawn.sum)] ∧ drawn.length + 1 = rsizes.length) ∧
      blocks.length = rsizes.sum ∧ ∀ b ∈ blocks, b.length = 32 := by
  induction rsizes generalizing i acc rng secs blocks with
  | nil => exact absurd rfl hne
  | cons rsize rsizes ih =>
    rw [List.length_cons] at hrings
    obtain ⟨⟨sec, acc', rng'⟩, hdigit, h⟩ := Option.bind_eq_some_iff.mp h
    obtain ⟨⟨secs', rest⟩, hrest, h⟩ := Option.bind_eq_some_iff.mp h
    cases h
    obtain ⟨hlen, hblocks⟩ := length_drawBlocks (C := C) message i rsize 0 rng'
    by_cases hlast : rsizes = []
    · subst hlast
      cases hrest
      have hdrawn : decide (i < rings - 1) = false := decide_eq_false (by simp at hrings; omega)
      rw [drawDigit, hdrawn] at hdigit
      cases hdigit
      exact ⟨⟨[], by simp, rfl⟩, by simpa using hlen, by simpa using hblocks⟩
    · have hpos : 0 < rsizes.length := List.length_pos_iff.mpr hlast
      have hdrawn : decide (i < rings - 1) = true := decide_eq_true (by omega)
      rw [drawDigit, hdrawn, if_pos rfl] at hdigit
      obtain ⟨⟨sec', rng₂⟩, -, hsec⟩ := Option.map_eq_some_iff.mp hdigit
      cases hsec
      obtain ⟨⟨drawn, rfl, hcount⟩, hlen', hblocks'⟩ := ih (by omega) hlast hrest
      refine ⟨⟨sec :: drawn, ?_, by simpa using hcount⟩, ?_, fun b hb => ?_⟩
      · rw [List.sum_cons, List.cons_append, add_assoc]
      · rw [List.length_append, hlen, hlen', List.sum_cons]
      · rcases List.mem_append.mp hb with hb | hb
        · exact hblocks b hb
        · exact hblocks' b hb

omit [DecidableEq E] in
theorem responseAt_ne_zero {blocks : List Bytes} (h : validBlocks n blocks = true) {j : ℕ}
    (hj : j < blocks.length) : responseAt n blocks j ≠ 0 := by
  have hmem : blocks.getD j [] ∈ blocks := by
    rw [List.getD_eq_getElem _ _ hj]
    exact List.getElem_mem hj
  have hvalid := List.all_eq_true.mp h _ hmem
  simp only [Bool.and_eq_true, decide_eq_true_eq] at hvalid
  exact hvalid.2

/-! ## What was prepared -/

variable {fuel plen : ℕ} {minValue value : UInt64} {commit genp : E} {blind nonce message : Bytes}
  {exp minBits : ℤ} {q : Prepared n E}

/-- What the first part of the signer hands over. -/
structure Prepared.Made (C : Curve n E) (q : Prepared n E) (fuel plen : ℕ) (minValue value : UInt64)
    (commit genp : E) (blind nonce message : Bytes) : Prop where
  splits : q.params.Splits minValue value
  rings : q.params.Rings
  room : 32 * (q.params.rsizes.sum + q.params.rings - 1) + 32 + (q.params.rings + 6) / 8 +
    (header q.params).length ≤ plen
  message_fits : message.length ≤ 128 * (q.params.rings - 1)
  drawn : ∃ drawn : List (ZMod n), genrand C fuel (prepMessage q.params message) q.params.rsizes nonce
      commit (header q.params) genp = some (drawn ++ [-drawn.sum], q.blocks) ∧
    q.secs = drawn ++ [-drawn.sum + (Curve.scalarSetB32 n blind).1] ∧
    drawn.length + 1 = q.params.rings
  blocks_length : q.blocks.length = q.params.rsizes.sum
  blocks_valid : validBlocks n q.blocks = true
  blind_fits : (Curve.scalarSetB32 n blind).2 = false
  firsts_eq : q.firsts = q.secs.mapIdx fun i sec => pedersenEcmult C sec
    ((UInt64.ofNat (q.params.secidx i) * q.params.scale) <<< UInt64.ofNat (i * 2)) genp
  firsts_ne : 0 ∉ q.firsts

theorem rsizes_ne_nil {p : Params} (hp : p.Rings) : p.rsizes ≠ [] := by
  rw [hp.rsizes_eq, ringSizes]
  split
  · next hne =>
    cases hhalf : p.mantissa / 2 with
    | zero =>
      have hone : p.mantissa % 2 = 1 := by omega
      simp [hone]
    | succ half => simp [List.replicate_succ]
  · simp

theorem npub_ge {p : Params} (h : proveParams minValue value exp minBits.toNat = some p) :
    p.rsizes.sum ≤ p.npub := by
  unfold proveParams at h
  simp only at h
  generalize (if minValue = 0xFFFFFFFFFFFFFFFF then -1 else exp) = e at h
  by_cases he : 0 ≤ e
  · rw [if_pos he] at h
    split at h
    · cases h
    · obtain rfl := Option.some.inj h
      exact le_rfl
  · rw [if_neg he] at h
    obtain rfl := Option.some.inj h
    show 1 ≤ 2
    decide

theorem made_of_prepare
    (h : prepare C fuel plen minValue commit blind nonce exp minBits value message genp = some q) :
    q.Made C fuel plen minValue value commit genp blind nonce message := by
  unfold prepare at h
  split at h
  · cases h
  · next hchecks =>
    obtain ⟨p, hp, h⟩ := Option.bind_eq_some_iff.mp h
    split at h
    · cases h
    · next hmessage =>
      split at h
      · cases h
      · next hroom =>
        obtain ⟨⟨secs, blocks⟩, hgen, h⟩ := Option.bind_eq_some_iff.mp h
        simp only at h
        split at h
        · cases h
        · next hvalid =>
          obtain rfl := Option.some.inj h
          simp only [not_or, not_lt, gt_iff_lt] at hchecks hvalid
          obtain ⟨hplen, hle, hbits, hpos, -, hexp⟩ := hchecks
          obtain ⟨hblocks, hover, -, hfirsts⟩ := hvalid
          obtain ⟨hsplits, hrings⟩ := proveParams_spec hp (UInt64.not_lt.mp hle) hexp (by omega)
          obtain ⟨⟨drawn, rfl, hcount⟩, hlen, -⟩ :=
            genrandRings_spec (by rw [Nat.zero_add]) (rsizes_ne_nil hrings) hgen
          have hnpub := npub_ge hp
          have hrings' : p.rings = p.rsizes.length := rfl
          simp only [zero_add] at hgen hfirsts ⊢
          exact {
            splits := hsplits
            rings := hrings
            room := by
              simp only
              omega
            message_fits := by
              simp only
              by_contra hlong
              exact hmessage ⟨by omega, by omega⟩
            drawn := ⟨drawn, hgen, by simp, hcount⟩
            blocks_length := hlen
            blocks_valid := by simpa using hblocks
            blind_fits := by simpa using hover
            firsts_eq := by simp
            firsts_ne := hfirsts }

/-! ## The commitments to the digits -/

/-- The worth of a digit. -/
def Params.weight (p : Params) (i : ℕ) : ℕ := p.secidx i * 4 ^ i * p.scale.toNat

theorem sum_weight {p : Params} (hs : p.Splits minValue value) (hp : p.Rings) :
    ((List.range p.rings).map p.weight).sum + p.minValue.toNat = value.toNat := by
  have hsum : ((List.range p.rings).map p.weight).sum = p.v.toNat * p.scale.toNat := by
    rw [← hp.sum_eq, ← List.sum_map_mul_right]
    rfl
  rw [hsum, hs.value_eq]

theorem weight_lt {p : Params} (hs : p.Splits minValue value) (hp : p.Rings) {i : ℕ} (hi : i < p.rings) :
    p.weight i < 2 ^ 64 := by
  have hmem : p.weight i ∈ (List.range p.rings).map p.weight :=
    List.mem_map_of_mem (List.mem_range.mpr hi)
  have hle : p.weight i ≤ ((List.range p.rings).map p.weight).sum := List.le_sum_of_mem hmem
  have hsum := sum_weight hs hp
  have hlt := value.toNat_lt
  omega

theorem rings_le {p : Params} (hs : p.Splits minValue value) (hp : p.Rings) : p.rings ≤ 32 := by
  have hle := hs.mantissa_le
  rw [Params.rings, hp.rsizes_eq, ringSizes]
  split
  · simp only [List.length_append, List.length_replicate]
    split
    · simp only [List.length_singleton]
      omega
    · simp only [List.length_nil]
      omega
  · decide

/-- Shifting the digit does not overflow. -/
theorem toNat_weight {p : Params} (hs : p.Splits minValue value) (hp : p.Rings) {i : ℕ} (hi : i < p.rings) :
    ((UInt64.ofNat (p.secidx i) * p.scale) <<< UInt64.ofNat (i * 2)).toNat = p.weight i := by
  have hle := rings_le hs hp
  have hlt := weight_lt hs hp hi
  have hpos : 0 < p.scale.toNat := by
    rw [hs.scale_eq]
    exact Nat.pos_of_neZero _
  have hdigit : p.secidx i < 4 := by
    have hidx := hp.secidx_lt i hi
    have hsize : ∀ r ∈ p.rsizes, r ≤ 4 := by
      rw [hp.rsizes_eq, ringSizes]
      split
      · intro r hr
        rcases List.mem_append.mp hr with hr | hr
        · rw [List.eq_of_mem_replicate hr]
        · split at hr <;> simp at hr
          omega
      · simp
    exact lt_of_lt_of_le hidx (hsize _ (List.getElem_mem hi))
  have hpow : 2 ^ (i * 2) = 4 ^ i := by rw [Nat.mul_comm, pow_mul, show (2 : ℕ) ^ 2 = 4 from rfl]
  have hshift : (UInt64.ofNat (i * 2)).toNat % 64 = i * 2 := by
    rw [UInt64.toNat_ofNat']
    omega
  have hscale : p.secidx i * p.scale.toNat ≤ p.weight i := by
    unfold Params.weight
    calc p.secidx i * p.scale.toNat = p.secidx i * 1 * p.scale.toNat := by rw [mul_one]
      _ ≤ p.secidx i * 4 ^ i * p.scale.toNat :=
        Nat.mul_le_mul_right _ (Nat.mul_le_mul_left _ (Nat.one_le_pow _ _ (by decide)))
  have hmul : (UInt64.ofNat (p.secidx i) * p.scale).toNat = p.secidx i * p.scale.toNat := by
    rw [UInt64.toNat_mul, UInt64.toNat_ofNat', Nat.mod_eq_of_lt (by omega : p.secidx i < 2 ^ 64),
      Nat.mod_eq_of_lt (by omega)]
  rw [UInt64.toNat_shiftLeft, hmul, hshift, Nat.shiftLeft_eq, hpow]
  have hreorder : p.secidx i * p.scale.toNat * 4 ^ i = p.weight i := by
    unfold Params.weight
    ring
  rw [hreorder, Nat.mod_eq_of_lt hlt]

omit [DecidableEq E] in
theorem sum_mapIdx_points (secs : List (ZMod n)) (f : ℕ → ZMod n → E) (w : ℕ → ℕ)
    (hf : ∀ i < secs.length, ∀ sec, f i sec = sec • C.G + w i • genp) :
    (secs.mapIdx f).sum = secs.sum • C.G + ((List.range secs.length).map w).sum • genp := by
  induction secs using List.reverseRecOn with
  | nil => simp
  | append_singleton secs sec ih =>
    have hlast := hf secs.length (by simp) sec
    rw [List.mapIdx_concat, List.sum_append, ih fun i hi => hf i (by simp; omega), List.sum_singleton, hlast,
      List.length_append, List.length_singleton, List.range_succ, List.map_append, List.sum_append,
      List.sum_append, List.map_singleton, List.sum_singleton, List.sum_singleton]
    module

namespace Prepared.Made

variable (hq : q.Made C fuel plen minValue value commit genp blind nonce message)

include hq

omit [DecidableEq E] in
theorem length_secs : q.secs.length = q.params.rings := by
  obtain ⟨drawn, -, hsecs, hcount⟩ := hq.drawn
  rw [hsecs, List.length_append, List.length_singleton, hcount]

omit [DecidableEq E] in
theorem sum_secs : q.secs.sum = (Curve.scalarSetB32 n blind).1 := by
  obtain ⟨drawn, -, hsecs, -⟩ := hq.drawn
  rw [hsecs, List.sum_append, List.sum_singleton, ← add_assoc, add_neg_cancel, zero_add]

omit [DecidableEq E] in
theorem length_firsts : q.firsts.length = q.params.rings := by
  rw [hq.firsts_eq, List.length_mapIdx, hq.length_secs]

omit [DecidableEq E] in
theorem firsts_ne_nil : q.firsts ≠ [] := by
  intro h
  have hlen := hq.length_firsts
  rw [h, List.length_nil] at hlen
  exact rsizes_ne_nil hq.rings (List.length_eq_zero_iff.mp hlen.symm)

omit [DecidableEq E] in
theorem getD_firsts {i : ℕ} (hi : i < q.params.rings) :
    q.firsts.getD i 0 = q.secs.getD i 0 • C.G + q.params.weight i • genp := by
  have hlen : i < q.secs.length := by rwa [hq.length_secs]
  rw [hq.firsts_eq, List.getD_eq_getElem _ _ (by rwa [List.length_mapIdx]), List.getElem_mapIdx,
    List.getD_eq_getElem _ _ hlen, pedersenEcmult, toNat_weight hq.splits hq.rings hi]
  rfl

omit [DecidableEq E] in
/-- The commitments to the digits and the minimum make the commitment to the value. -/
theorem sum_firsts : q.firsts.sum + q.params.minValue.toNat • genp =
    (Curve.scalarSetB32 n blind).1 • C.G + value.toNat • genp := by
  have hsum : q.firsts.sum = q.secs.sum • C.G + ((List.range q.secs.length).map q.params.weight).sum • genp := by
    rw [hq.firsts_eq]
    refine sum_mapIdx_points q.secs _ q.params.weight fun i hi sec => ?_
    rw [hq.length_secs] at hi
    rw [pedersenEcmult, toNat_weight hq.splits hq.rings hi]
    rfl
  rw [hsum, hq.sum_secs, hq.length_secs, ← sum_weight hq.splits hq.rings, add_assoc, ← add_smul]

omit [DecidableEq E] in
/-- What the commitments that are sent leave of the commitment to the value is the last one. -/
theorem last_first (hcommit : commit = (Curve.scalarSetB32 n blind).1 • C.G + value.toNat • genp) :
    -(q.firsts.dropLast.foldl (· + ·) (if q.params.minValue ≠ 0 then q.params.minValue.toNat • genp else 0)) +
      commit = q.firsts.getLast hq.firsts_ne_nil := by
  have hne := hq.firsts_ne_nil
  have hmin : (if q.params.minValue ≠ 0 then q.params.minValue.toNat • genp else 0) =
      q.params.minValue.toNat • genp := by
    split
    · rfl
    · next hzero =>
      rw [not_not.mp hzero]
      simp
  have hfold : ∀ (l : List E) (a : E), l.foldl (· + ·) a = a + l.sum := by
    intro l
    induction l with
    | nil => simp
    | cons x l ih =>
      intro a
      rw [List.foldl_cons, ih, List.sum_cons, add_assoc]
  have hsum : q.firsts.sum = q.firsts.dropLast.sum + q.firsts.getLast hne := by
    conv_lhs => rw [← List.dropLast_append_getLast hne]
    rw [List.sum_append, List.sum_singleton]
  have htotal : commit = q.firsts.dropLast.sum + q.firsts.getLast hne + q.params.minValue.toNat • genp := by
    rw [← hsum, hq.sum_firsts, hcommit]
  rw [hmin, hfold]
  generalize q.firsts.getLast hne = last at htotal ⊢
  rw [htotal]
  abel

end Prepared.Made

/-! ## The layout of a proof -/

theorem length_flatten_of_forall {bs : List Bytes} (h : ∀ b ∈ bs, b.length = 32) :
    bs.flatten.length = 32 * bs.length := by
  rw [List.length_flatten, List.map_congr_left h, List.map_const', List.sum_replicate]
  exact Nat.mul_comm ..

/-- Pieces that were put one after the other. -/
theorem pieces_append (pre : Bytes) {bs : List Bytes} (h : ∀ b ∈ bs, b.length = 32) (post : Bytes) :
    pieces (pre ++ (bs.flatten ++ post)) pre.length bs.length = bs := by
  induction bs generalizing pre with
  | nil => rfl
  | cons b bs ih =>
    have hb : b.length = 32 := h b (by simp)
    have hlater := ih (pre ++ b) fun c hc => h c (by simp [hc])
    rw [pieces, List.length_cons, List.range_succ_eq_map, List.map_cons, List.map_map]
    congr 1
    · rw [Nat.mul_zero, Nat.add_zero, List.drop_left, List.flatten_cons, List.append_assoc,
        List.take_left' hb]
    · rw [List.length_append, hb, List.append_assoc, ← List.append_assoc b] at hlater
      conv_rhs => rw [← hlater]
      refine List.map_congr_left fun i _ => ?_
      rw [Function.comp_apply, Nat.mul_succ, Nat.add_comm (32 * i), ← Nat.add_assoc]
      rfl

namespace Prepared

omit [Module (ZMod n) E] [DecidableEq E] in
theorem flags_sent : ∀ f ∈ (q.sent C).map (·.headD 0), f = 0 ∨ f = 1 := by
  intro f hf
  simp only [Prepared.sent, List.map_map, List.mem_map] at hf
  obtain ⟨p, -, rfl⟩ := hf
  simp only [Function.comp_apply, Curve.serializePoint, List.headD_cons]
  split
  · exact .inl rfl
  · exact .inr rfl

omit [Module (ZMod n) E] [DecidableEq E] in
/-- What was sent goes into the hash as it was. -/
theorem bytes_sent : List.zipWith (fun (sign : Bool) x => (if sign then 1 else 0) :: x)
    ((q.sent C).map fun b => decide (b.headD 0 = 1)) ((q.sent C).map List.tail) = q.sent C := by
  rw [List.zipWith_map, List.zipWith_self]
  refine (List.map_congr_left fun b hb => ?_).trans (List.map_id _)
  obtain ⟨p, -, rfl⟩ := List.mem_map.mp hb
  simp only [Curve.serializePoint, List.headD_cons, List.tail_cons, id]
  split <;> simp

end Prepared

namespace Prepared.Made

variable (hq : q.Made C fuel plen minValue value commit genp blind nonce message)

include hq

omit [DecidableEq E] in
theorem length_sent : (q.sent C).length = q.params.rings - 1 := by
  rw [Prepared.sent, List.length_map, List.length_dropLast, hq.length_firsts]

omit [DecidableEq E] in
/-- The size of a proof, which fits into the buffer. -/
theorem length_proof {e0 : Bytes} (he0 : e0.length = 32) (s : ℕ → ZMod n) :
    (q.proof C e0 s).length = (header q.params).length + ((q.params.rings + 6) / 8 +
      (32 * (q.params.rings - 1) + (32 + 32 * q.params.rsizes.sum))) := by
  have htails : ((q.sent C).map List.tail).flatten.length = 32 * (q.params.rings - 1) := by
    rw [length_flatten_of_forall, List.length_map, hq.length_sent]
    intro b hb
    simp only [Prepared.sent, List.map_map, List.mem_map] at hb
    obtain ⟨p, -, rfl⟩ := hb
    simp
  have hresponses : ((List.range q.params.rsizes.sum).map fun i => Curve.scalarGetB32 (s i)).flatten.length =
      32 * q.params.rsizes.sum := by
    rw [length_flatten_of_forall, List.length_map, List.length_range]
    intro b hb
    obtain ⟨i, -, rfl⟩ := List.mem_map.mp hb
    simp
  rw [Prepared.proof, List.length_append, List.length_append, List.length_append, List.length_append,
    FlagBytes.length_pack, htails, hresponses, he0]

omit [DecidableEq E] in
theorem length_flags : ((q.sent C).map (·.headD 0)).length = q.params.rings - 1 := by
  rw [List.length_map, hq.length_sent]

omit [DecidableEq E] in
/-- The points that were sent are read from their flags and coordinates. -/
theorem points_sent : List.zipWith (fun sign x => if sign then -C.setXquad x else C.setXquad x)
    ((q.sent C).map fun b => decide (b.headD 0 = 1)) ((q.sent C).map List.tail) = q.firsts.dropLast := by
  rw [List.zipWith_map, List.zipWith_self, Prepared.sent, List.map_map]
  refine (List.map_congr_left fun p hp => ?_).trans (List.map_id _)
  have hne : p ≠ 0 := fun h => hq.firsts_ne (h ▸ List.mem_of_mem_dropLast hp)
  have hpoint := C.setXquad_serializePoint hne
  rw [Function.comp_apply, id]
  conv_rhs => rw [← hpoint]
  simp [Curve.serializePoint]

variable {e0 : Bytes}

omit [DecidableEq E] in
/-- The header of a proof is read back. -/
theorem getHeader_proof (he0 : e0.length = 32) (s : ℕ → ZMod n) :
    getHeader (q.proof C e0 s) = some (headerOf q.params) := by
  refine getHeader_append hq.splits hq.rings ?_
  have hlen := hq.length_proof he0 s
  have hheader := length_header hq.rings
  have hpos : 0 < q.params.rsizes.sum := by
    have hidx := hq.rings.secidx_lt 0 (List.length_pos_iff.mpr (rsizes_ne_nil hq.rings))
    have hle := List.le_sum_of_mem (List.getElem_mem (List.length_pos_iff.mpr (rsizes_ne_nil hq.rings)))
    omega
  have hone : 1 ≤ (header q.params).length := by
    rw [hheader]
    split <;> omega
  rw [Prepared.proof] at hlen
  rw [hlen]
  omega

omit [DecidableEq E] in
/-- The parts of a proof behind the flags are where the verifier looks for them. -/
theorem pieces_proof [NeZero n] (he0 : e0.length = 32) (s : ℕ → ZMod n) :
    let offset := (header q.params).length + (q.params.rings + 6) / 8
    pieces (q.proof C e0 s) offset (q.params.rings - 1) = (q.sent C).map List.tail ∧
      ((q.proof C e0 s).drop (offset + 32 * (q.params.rings - 1))).take 32 = e0 ∧
      (pieces (q.proof C e0 s) (offset + 32 * (q.params.rings - 1) + 32) q.params.rsizes.sum).map
        (Curve.scalarSetB32 n) = (List.range q.params.rsizes.sum).map fun i => (s i, false) := by
  intro offset
  have htail : ∀ b ∈ (q.sent C).map List.tail, b.length = 32 := by
    intro b hb
    simp only [Prepared.sent, List.map_map, List.mem_map] at hb
    obtain ⟨p, -, rfl⟩ := hb
    simp
  have hresponse : ∀ b ∈ (List.range q.params.rsizes.sum).map fun i => Curve.scalarGetB32 (s i), b.length = 32 := by
    intro b hb
    obtain ⟨i, -, rfl⟩ := List.mem_map.mp hb
    simp
  have hcount : ((q.sent C).map List.tail).length = q.params.rings - 1 := by rw [List.length_map, hq.length_sent]
  have hflat := length_flatten_of_forall htail
  generalize hflags : FlagBytes.pack ((q.params.rings + 6) / 8) ((q.sent C).map (·.headD 0)) = flags
  have hsize : flags.length = (q.params.rings + 6) / 8 := by rw [← hflags, FlagBytes.length_pack]
  rw [Prepared.proof, hflags]
  generalize (q.sent C).map List.tail = tails at htail hcount hflat ⊢
  rw [hcount] at hflat
  refine ⟨?_, ?_, ?_⟩
  · have hpieces := pieces_append (header q.params ++ flags) htail
      (e0 ++ ((List.range q.params.rsizes.sum).map fun i => Curve.scalarGetB32 (s i)).flatten)
    rwa [List.append_assoc, List.length_append, hsize, hcount] at hpieces
  · rw [← List.append_assoc, ← List.append_assoc, List.drop_left' (by simp [offset, hsize, hflat, Nat.add_assoc]),
      List.take_left' he0]
  · have hpieces := pieces_append (header q.params ++ flags ++ tails.flatten ++ e0) hresponse []
    simp only [List.append_nil, List.length_append, List.length_map, List.length_range, hsize, hflat, he0,
      List.append_assoc] at hpieces
    rw [show offset + 32 * (q.params.rings - 1) + 32 = (header q.params).length +
      ((q.params.rings + 6) / 8 + (32 * (q.params.rings - 1) + 32)) by omega, hpieces, List.map_map]
    exact List.map_congr_left fun i _ => C.scalarSetB32_getB32 (s i)

/-- What the verifier reads from a proof is what the signer has written. -/
theorem openProof_proof [NeZero n] (he0 : e0.length = 32) (s : ℕ → ZMod n) (extraCommit : Bytes)
    (hcommit : commit = (Curve.scalarSetB32 n blind).1 • C.G + value.toNat • genp) :
    openProof C commit (q.proof C e0 s) extraCommit genp = some {
      header := headerOf q.params
      firsts := q.firsts
      e0
      responses := (List.range q.params.rsizes.sum).map s
      digest := q.digest C commit extraCommit genp } := by
  have hlen := hq.length_proof he0 s
  have hrsizes : ringSizes (headerOf q.params).mantissa = q.params.rsizes := hq.rings.rsizes_eq.symm
  have hoffset : (headerOf q.params).offset = (header q.params).length := rfl
  have hmin : (headerOf q.params).minValue = q.params.minValue := rfl
  have hrings : q.params.rsizes.length = q.params.rings := rfl
  have hpos : 0 < q.params.rings := List.length_pos_iff.mpr (rsizes_ne_nil hq.rings)
  have hdrop : (q.proof C e0 s).drop (header q.params).length = _ := List.drop_left
  have hsigns : (List.range (q.params.rings - 1)).map
      (FlagBytes.isSet ((q.proof C e0 s).drop (header q.params).length)) =
      (q.sent C).map fun b => decide (b.headD 0 = 1) := by
    rw [hdrop, ← hq.length_flags, FlagBytes.map_isSet_pack Prepared.flags_sent (by rw [hq.length_flags]; omega),
      List.map_map]
    rfl
  have hspare : ¬ ((q.params.rings - 1) % 8 ≠ 0 ∧
      (q.proof C e0 s).getD ((header q.params).length + (q.params.rings + 6) / 8 - 1) 0 >>>
        UInt8.ofNat ((q.params.rings - 1) % 8) ≠ 0) := by
    rintro ⟨hmod, hbits⟩
    have hclear := FlagBytes.shiftRight_pack (Prepared.flags_sent (C := C) (q := q))
    rw [hq.length_flags] at hclear
    have hat : (header q.params).length + (q.params.rings + 6) / 8 - 1 =
        (header q.params).length + (q.params.rings - 1) / 8 := by omega
    have hsize : (q.params.rings + 6) / 8 = (q.params.rings - 1 + 7) / 8 := by omega
    rw [hat, Prepared.proof, List.getD_append_right _ _ _ _ (Nat.le_add_right ..), Nat.add_sub_cancel_left,
      List.getD_append _ _ _ _ (by rw [FlagBytes.length_pack]; omega), hsize] at hbits
    exact hbits hclear
  obtain ⟨hxs, he0', hresponses⟩ := hq.pieces_proof he0 s
  have hroom : ¬ (q.proof C e0 s).length - (header q.params).length <
      32 * (q.params.rsizes.sum + q.params.rings - 1) + 32 + (q.params.rings + 6) / 8 := by
    rw [hlen]
    omega
  have hend : (header q.params).length + (q.params.rings + 6) / 8 + 32 * (q.params.rings - 1) + 32 +
      32 * q.params.rsizes.sum = (q.proof C e0 s).length := by
    rw [hlen]
    omega
  have htake : (q.proof C e0 s).take (header q.params).length = header q.params := List.take_left
  have hlast := hq.last_first hcommit
  have hne : q.firsts.getLast hq.firsts_ne_nil ≠ 0 := fun h =>
    hq.firsts_ne (h ▸ List.getLast_mem hq.firsts_ne_nil)
  have hfits : ¬ ∃ r ∈ (List.range q.params.rsizes.sum).map fun i => (s i, false), r.2 = true := by
    rintro ⟨r, hr, hover⟩
    obtain ⟨i, -, rfl⟩ := List.mem_map.mp hr
    cases hover
  have hfirsts : q.firsts.dropLast ++ [q.firsts.getLast hq.firsts_ne_nil] = q.firsts :=
    List.dropLast_append_getLast _
  unfold openProof
  rw [hq.getHeader_proof he0 s, Option.bind_some]
  simp only
  rw [hrsizes, hoffset, hrings, if_neg hroom, hsigns, if_neg hspare, hxs, hq.points_sent,
    Prepared.bytes_sent, he0', hresponses, hmin, hlast, if_neg (by
      rintro (h | h | h)
      · exact hne h
      · exact hfits h
      · exact h hend), hfirsts, htake, List.map_map]
  rfl

end Prepared.Made

/-! ## The rings -/

omit [Module (ZMod n) E] [DecidableEq E] in
theorem length_expandRings {base : E} {firsts : List E} {rsizes : List ℕ} (h : firsts.length = rsizes.length) :
    (expandRings base firsts rsizes).length = rsizes.sum := by
  induction rsizes generalizing base firsts with
  | nil =>
    obtain rfl := List.length_eq_zero_iff.mp h
    rfl
  | cons rsize rsizes ih =>
    cases firsts with
    | nil => cases h
    | cons first firsts =>
      rw [expandRings, List.length_append, length_expandRing, ih (Nat.succ.inj h), List.sum_cons]

/-- All rings but the last one have four members. -/
theorem sum_take_rsizes {p : Params} (hp : p.Rings) {l : ℕ} (hl : l < p.rsizes.length) :
    (p.rsizes.take l).sum = l * 4 := by
  rw [hp.rsizes_eq, ringSizes] at hl ⊢
  by_cases hm : p.mantissa ≠ 0
  · rw [if_pos hm] at hl ⊢
    have hle : l ≤ p.mantissa / 2 := by
      rw [List.length_append, List.length_replicate] at hl
      split at hl <;> simp at hl <;> omega
    rw [List.take_append_of_le_length (by rwa [List.length_replicate]), List.take_replicate,
      List.sum_replicate, Nat.min_eq_left hle]
    rfl
  · rw [if_neg hm] at hl ⊢
    obtain rfl : l = 0 := by simpa using hl
    rfl

/-- The response that was cleared is where the ring has its secret member. -/
theorem secretAt_iff {p : Params} (hp : p.Rings) {j : ℕ} :
    Curve.SecretAt p.secidx 0 0 p.rsizes j ↔ ∃ i < p.rings, j = i * 4 + p.secidx i := by
  rw [Curve.secretAt_iff]
  refine exists_congr fun i => and_congr_right fun hi => ?_
  rw [sum_take_rsizes hp hi, Nat.zero_add, Nat.zero_add]

omit [AddCommGroup E] [Module (ZMod n) E] [DecidableEq E] in
/-- The responses that were not cleared are those of the blocks. -/
theorem Prepared.responses_of_forged {j : ℕ} (h : ∀ i < q.params.rings, j ≠ i * 4 + q.params.secidx i) :
    q.responses j = responseAt n q.blocks j := by
  unfold Prepared.responses
  generalize q.params.rings = rings at h ⊢
  induction rings with
  | zero => rfl
  | succ rings ih =>
    rw [List.range_succ, List.foldl_append, List.foldl_cons, List.foldl_nil,
      Function.update_of_ne (h rings (Nat.lt_succ_self _)), ih fun i hi => h i (by omega)]

namespace Prepared.Made

variable (hq : q.Made C fuel plen minValue value commit genp blind nonce message)

include hq

omit [DecidableEq E] in
/-- In every ring the member with the digit has the point of its blinding factor. -/
theorem secrets : C.Secrets (fun j => (q.pubs genp).getD j 0) (fun i => q.secs.getD i 0) q.params.secidx
    0 0 q.params.rsizes := by
  have hbase : tenTimes^[q.params.exp] (-genp) = q.params.scale.toNat • -genp := by
    rw [tenTimes_iterate, hq.splits.scale_eq]
  refine secrets_expandRings [] hq.length_firsts fun l hl => ?_
  rw [Nat.zero_add, hbase, hq.getD_firsts hl, Params.weight]
  refine ⟨hq.rings.secidx_lt l hl, ?_⟩
  rw [← mul_smul, smul_neg, add_neg_cancel_right]

omit [DecidableEq E] in
theorem length_pubs : (q.pubs genp).length = q.params.rsizes.sum := length_expandRings hq.length_firsts

omit [DecidableEq E] in
/-- A forged response is one. -/
theorem forged {j : ℕ} (hj : j < q.params.rsizes.sum)
    (h : ¬ Curve.SecretAt q.params.secidx 0 0 q.params.rsizes j) : q.responses j ≠ 0 := by
  rw [secretAt_iff hq.rings] at h
  simp only [not_exists, not_and] at h
  rw [Prepared.responses_of_forged h]
  exact responseAt_ne_zero hq.blocks_valid (hq.blocks_length ▸ hj)

/-- The responses that the verifier has read are those of the signer. -/
theorem getD_responses {m e0 : Bytes} {s : ℕ → ZMod n} (hsign : C.borromeanSign m q.responses
    (fun j => (q.pubs genp).getD j 0) q.nonces (fun i => q.secs.getD i 0) q.params.secidx
    q.params.rsizes = some (e0, s)) (j : ℕ) :
    ((List.range q.params.rsizes.sum).map s).getD j 0 = s j := by
  by_cases hj : j < q.params.rsizes.sum
  · rw [List.getD_eq_getElem _ _ (by simpa using hj), List.getElem_map, List.getElem_range]
  · have hfar : ¬ Curve.SecretAt q.params.secidx 0 0 q.params.rsizes j := fun h => by
      have hlt := C.lt_of_secretAt hq.secrets h
      omega
    rw [List.getD_eq_default _ _ (by simpa using hj), (C.borromeanSign_frame hsign).2 j hfar]
    rw [secretAt_iff hq.rings] at hfar
    simp only [not_exists, not_and] at hfar
    rw [Prepared.responses_of_forged hfar, responseAt,
      List.getD_eq_default _ _ (by rw [hq.blocks_length]; omega)]
    simp [Curve.scalarSetB32, asNat]

/-- The rings of a proof are verified unless a point is at infinity. -/
theorem verify_of_sign [NeZero n] {extraCommit e0 : Bytes} {s : ℕ → ZMod n}
    (hsign : C.borromeanSign (q.digest C commit extraCommit genp) q.responses
      (fun j => (q.pubs genp).getD j 0) q.nonces (fun i => q.secs.getD i 0) q.params.secidx
      q.params.rsizes = some (e0, s)) (hpubs : 0 ∉ q.pubs genp) :
    ∃ es, C.borromeanVerify (q.digest C commit extraCommit genp) s (fun j => (q.pubs genp).getD j 0) e0
        q.params.rsizes = some es ∧
      Curve.Responds s q.nonces (fun i => q.secs.getD i 0) q.params.secidx 0 0 q.params.rsizes es := by
  refine C.borromean_complete hsign hq.secrets (fun j hj hzero => hpubs ?_) fun j => hq.forged
  rw [← hq.length_pubs] at hj
  rw [List.getD_eq_getElem _ _ hj] at hzero
  exact hzero ▸ List.getElem_mem hj

end Prepared.Made

/-- What a proof was made of. -/
theorem exists_of_signImpl {extraCommit proof : Bytes}
    (h : signImpl C fuel plen minValue commit blind nonce exp minBits value message extraCommit genp =
      some proof) : ∃ (q : Prepared n E) (e0 : Bytes) (s : ℕ → ZMod n),
      q.Made C fuel plen minValue value commit genp blind nonce message ∧
      C.borromeanSign (q.digest C commit extraCommit genp) q.responses (fun j => (q.pubs genp).getD j 0)
        q.nonces (fun i => q.secs.getD i 0) q.params.secidx q.params.rsizes = some (e0, s) ∧
      proof = q.proof C e0 s := by
  obtain ⟨q, hq, h⟩ := Option.bind_eq_some_iff.mp h
  obtain ⟨⟨e0, s⟩, hsign, rfl⟩ := Option.map_eq_some_iff.mp h
  exact ⟨q, e0, s, made_of_prepare hq, hsign, rfl⟩

namespace Prepared.Made

variable (hq : q.Made C fuel plen minValue value commit genp blind nonce message)

include hq

omit [DecidableEq E] in
/-- The range of a proof has the value, and begins at the minimum or above. -/
theorem range : minValue ≤ (headerOf q.params).minValue ∧ (headerOf q.params).minValue ≤ value ∧
    value ≤ (headerOf q.params).maxValue := by
  have hmax := toNat_maxValue_headerOf hq.splits
  have hvalue := hq.splits.value_eq
  have hdigits : q.params.v.toNat * q.params.scale.toNat ≤ (2 ^ q.params.mantissa - 1) * q.params.scale.toNat :=
    Nat.mul_le_mul_right _ (Nat.le_sub_one_of_lt hq.splits.v_lt)
  have hmin : (headerOf q.params).minValue.toNat = q.params.minValue.toNat := rfl
  rw [UInt64.le_iff_toNat_le, UInt64.le_iff_toNat_le, UInt64.le_iff_toNat_le, hmax, hmin]
  exact ⟨hq.splits.minValue_le, by omega, by omega⟩

/-- What the verifier makes of a proof. -/
theorem verify_proof [NeZero n] {extraCommit e0 : Bytes} {s : ℕ → ZMod n}
    (hsign : C.borromeanSign (q.digest C commit extraCommit genp) q.responses
      (fun j => (q.pubs genp).getD j 0) q.nonces (fun i => q.secs.getD i 0) q.params.secidx
      q.params.rsizes = some (e0, s))
    (hcommit : commit = (Curve.scalarSetB32 n blind).1 • C.G + value.toNat • genp) :
    ∃ o, openProof C commit (q.proof C e0 s) extraCommit genp = some o ∧
      o.header = headerOf q.params ∧ o.pubs genp = q.pubs genp ∧ o.rsizes = q.params.rsizes ∧
      (∀ j, o.responses.getD j 0 = s j) ∧
      o.verify C genp = C.borromeanVerify (q.digest C commit extraCommit genp) s
        (fun j => (q.pubs genp).getD j 0) e0 q.params.rsizes := by
  obtain ⟨he0, -⟩ := C.borromeanSign_frame hsign
  have hrsizes : ringSizes (headerOf q.params).mantissa = q.params.rsizes := hq.rings.rsizes_eq.symm
  have hpubs : pubExpand q.firsts (headerOf q.params).exp.toNat (ringSizes (headerOf q.params).mantissa) genp =
      q.pubs genp := by
    rw [toNat_exp_headerOf hq.splits, hrsizes]
    rfl
  have hresponses : (fun j => ((List.range q.params.rsizes.sum).map s).getD j 0) = s :=
    funext (hq.getD_responses hsign)
  refine ⟨_, hq.openProof_proof he0 s extraCommit hcommit, rfl, hpubs, hrsizes,
    hq.getD_responses hsign, ?_⟩
  rw [Opened.verify, Opened.pubs, Opened.rsizes]
  simp only
  rw [hpubs, hrsizes, hresponses]

end Prepared.Made

/-- A proof that was made for a commitment fits into the buffer, can be read, and its range has the
value. It is accepted exactly when no point of a digit is at infinity. -/
theorem rangeproof_accepted [NeZero n] {extraCommit proof : Bytes}
    (hsign : signImpl C fuel plen minValue commit blind nonce exp minBits value message extraCommit genp =
      some proof)
    (hcommit : commit = (Curve.scalarSetB32 n blind).1 • C.G + value.toNat • genp) :
    proof.length ≤ plen ∧ ∃ o, openProof C commit proof extraCommit genp = some o ∧
      minValue ≤ o.header.minValue ∧ o.header.minValue ≤ value ∧ value ≤ o.header.maxValue ∧
      verifyImpl C commit proof extraCommit genp =
        if 0 ∈ o.pubs genp then none else some (o.header.minValue, o.header.maxValue) := by
  obtain ⟨q, e0, s, hq, hring, rfl⟩ := exists_of_signImpl hsign
  obtain ⟨he0, -⟩ := C.borromeanSign_frame hring
  obtain ⟨o, hopen, hheader, hpubs, hrsizes, -, hverify⟩ := hq.verify_proof hring hcommit
  have hlen := hq.length_proof he0 s
  have hroom := hq.room
  have hpos : 0 < q.params.rings := List.length_pos_iff.mpr (rsizes_ne_nil hq.rings)
  obtain ⟨hmin, hle, hmax⟩ := hq.range
  refine ⟨by omega, o, hopen, hheader ▸ hmin, hheader ▸ hle, hheader ▸ hmax, ?_⟩
  rw [verifyImpl, hopen, Option.bind_some, hverify, hpubs]
  split
  · next hinfinity =>
    -- the verifier refuses the point
    rw [Option.map_eq_none_iff]
    cases hresult : C.borromeanVerify (q.digest C commit extraCommit genp) s
      (fun j => (q.pubs genp).getD j 0) e0 q.params.rsizes with
    | none => rfl
    | some es =>
      obtain ⟨j, hj, hzero⟩ := List.getElem_of_mem hinfinity
      have hne := C.pubs_ne_zero_of_borromeanVerify hresult j (hq.length_pubs ▸ hj)
      rw [List.getD_eq_getElem _ _ hj] at hne
      exact absurd hzero hne
  · next hfinite =>
    obtain ⟨es, hes, -⟩ := hq.verify_of_sign hring hfinite
    rw [hes]
    rfl

/-- The commitment to thirty under the blinding factor five, over the generator `2 ^ 252`. -/
def commitThirty : ZMod (256 ^ 32) := 5 + 30 * 2 ^ 252

/-- The proof that thirty is at least two: three digits, one sign flag, a message and extra data. -/
def signThirty : Option Bytes :=
  signImpl (Curve.scalarCurve (256 ^ 32) le_rfl) 3 1000 2 commitThirty (ofNat 32 5) (ofNat 32 7) 0 5 30 [1, 2] [9]
    (2 ^ 252)

theorem rangeproof_accepted_thirty : ∃ proof, signThirty = some proof ∧
    verifyImpl (Curve.scalarCurve (256 ^ 32) le_rfl) commitThirty proof [9] (2 ^ 252) = some (2, 33) ∧
    proof.length ≤ 1000 ∧
    ∃ o, openProof (Curve.scalarCurve (256 ^ 32) le_rfl) commitThirty proof [9] (2 ^ 252) = some o ∧
      2 ≤ o.header.minValue ∧ o.header.minValue ≤ 30 ∧ 30 ≤ o.header.maxValue ∧
      verifyImpl (Curve.scalarCurve (256 ^ 32) le_rfl) commitThirty proof [9] (2 ^ 252) =
        if 0 ∈ o.pubs (2 ^ 252) then none else some (o.header.minValue, o.header.maxValue) := by
  have hmade : (signThirty.bind fun proof =>
      verifyImpl (Curve.scalarCurve (256 ^ 32) le_rfl) commitThirty proof [9] (2 ^ 252)) = some (2, 33) := by
    decide +kernel
  obtain ⟨proof, hsign, hverify⟩ := Option.bind_eq_some_iff.mp hmade
  exact ⟨proof, hsign, hverify, rangeproof_accepted hsign (by decide +kernel)⟩

end Rangeproof

end GrinDotnet
