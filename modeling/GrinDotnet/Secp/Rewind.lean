import Mathlib.Algebra.Field.ZMod
import GrinDotnet.Secp.Rangeproof

/-!
# Rewinding a range proof

`secp256k1_rangeproof_rewind_inner`: whoever has the nonce draws the random values again, and reads the
value, the blinding factor and the message out of the responses.

Results:
1. `genrandRings_zero`: the verifier draws the values of the signer, without the message.
2. `rewind_recovers`: what the signer put into a proof is recovered.
-/

namespace GrinDotnet

open BigEndian Curve

namespace Rangeproof

variable {n : ℕ} {E : Type*} [AddCommGroup E] [Module (ZMod n) E] [DecidableEq E] (C : Curve n E)

/-! ## Rewinding -/

/-- `secp256k1_rangeproof_recover_x`. -/
def recoverX (k e s : ZMod n) : ZMod n := (-s + k) * e⁻¹

/-- `secp256k1_rangeproof_recover_k`. -/
def recoverK (x e s : ZMod n) : ZMod n := s + x * e

/-- `secp256k1_rangeproof_ch32xor`. -/
def ch32xor (x y : Bytes) : Bytes := List.zipWith (· ^^^ ·) x y

/-- The value that is encoded in a response, if it looks like one. -/
def encodingAt (s : ZMod n) (block : Bytes) : Option UInt64 :=
  let tmp := ch32xor (Curve.scalarGetB32 s) block
  if tmp.headD 0 &&& 128 ≠ 0 ∧ (tmp.drop 16).take 8 = (tmp.drop 24).take 8 ∧
      (tmp.drop 8).take 8 = (tmp.drop 16).take 8 then some (UInt64.ofNat (asNat ((tmp.drop 24).take 8)))
  else none

/-- What a proof is rewound with: the challenges, the responses and what was drawn again. -/
structure Rewinding (n : ℕ) where
  rsizes : List ℕ
  ev : List (ZMod n)
  s : ℕ → ZMod n
  secs : List (ZMod n)
  blocks : List Bytes

namespace Rewinding

variable (w : Rewinding n)

/-- The index of the last ring. -/
def last : ℕ := w.rsizes.length - 1

/-- The loop that looks for a value in the last two members: how far before the end it was, and the
value. -/
def findValue : Option (ℕ × UInt64) :=
  let idx := w.last * 4 + w.rsizes.getLastD 0 - 1
  match encodingAt (w.s idx) (w.blocks.getD idx []) with
  | some value => some (0, value)
  | none => (encodingAt (w.s (idx - 1)) (w.blocks.getD (idx - 1) [])).map fun value => (1, value)

/-- The bytes of the message that a member has. -/
def memberMessage (value : UInt64) (skip1 skip2 i npub j : ℕ) : Bytes :=
  if npub = skip1 ∨ npub = skip2 then []
  else
    let stmp := if digitAt value i = j then recoverK (w.secs.getD i 0) (w.ev.getD npub 0) (w.s npub)
      else w.s npub
    ch32xor (Curve.scalarGetB32 stmp) (w.blocks.getD npub [])

/-- The loop over the rings that reads the message. -/
def readMessage (value : UInt64) (skip1 skip2 : ℕ) : ℕ → ℕ → List ℕ → Bytes
  | _, _, [] => []
  | i, npub, rsize :: rsizes =>
    ((List.range rsize).map fun j => w.memberMessage value skip1 skip2 i (npub + j) j).flatten ++
      readMessage value skip1 skip2 (i + 1) (npub + rsize) rsizes

/-- What is recovered. -/
structure Recovered (n : ℕ) where
  blind : ZMod n
  value : UInt64
  message : Bytes

/-- `secp256k1_rangeproof_rewind_inner` behind the random values; `mlen` is the room for the message. -/
def rewind (mlen : ℕ) : Option (Recovered n) :=
  if w.rsizes.length = 1 ∧ w.rsizes.headD 0 = 1 then
    some { blind := recoverX (responseAt n w.blocks 0) (w.ev.getD 0 0) (w.s 0), value := 0, message := [] }
  else
    w.findValue.bind fun (j, value) =>
      let skip1 := w.rsizes.getLastD 0 - 1 - j
      let skip2 := digitAt value w.last
      if skip1 = skip2 then none
      else
        let skip1 := skip1 + w.last * 4
        let skip2 := skip2 + w.last * 4
        let stmp := recoverX (responseAt n w.blocks skip2) (w.ev.getD skip2 0) (w.s skip2)
        some {
          blind := stmp + -w.secs.getD w.last 0
          value
          message := (w.readMessage value skip1 skip2 0 0 w.rsizes).take mlen }

end Rewinding

/-- What a verifier with a nonce hands over. -/
structure Unwound where
  minValue : UInt64
  maxValue : UInt64
  blind : Bytes
  value : UInt64
  message : Bytes
deriving DecidableEq

/-- The random values that the verifier draws again. -/
def Opened.regenerate (o : Opened n E) (fuel : ℕ) (nonce : Bytes) (commit : E) (proof : Bytes) (genp : E) :
    Option (List (ZMod n) × List Bytes) :=
  genrand C fuel (fun _ => 0) o.rsizes nonce commit (proof.take o.header.offset) genp

/-- `secp256k1_rangeproof_verify_impl` with a nonce. -/
def rewindImpl (fuel mlen : ℕ) (commit : E) (proof extraCommit nonce : Bytes) (genp : E) : Option Unwound :=
  (openProof C commit proof extraCommit genp).bind fun o =>
    (o.verify C genp).bind fun ev =>
      (o.regenerate C fuel nonce commit proof genp).bind fun (secs, blocks) =>
        let w : Rewinding n := ⟨o.rsizes, ev, fun j => o.responses.getD j 0, secs, blocks⟩
        (w.rewind mlen).bind fun r =>
          let vv := r.value * o.header.scale + o.header.minValue
          let accj := pedersenEcmult C r.blind vv genp
          if accj = 0 ∨ -accj + commit ≠ 0 then none
          else some {
            minValue := o.header.minValue
            maxValue := o.header.maxValue
            blind := Curve.scalarGetB32 r.blind
            value := vv
            message := r.message }

/-! ## The random values -/

variable {C}

/-- A block with its part of the message, and the blocks of a ring with theirs. -/
def withMessage (message : ℕ → UInt8) (p : ℕ) (block : Bytes) : Bytes :=
  block.mapIdx fun b t => t ^^^ message (p * 32 + b)

omit [Module (ZMod n) E] [DecidableEq E] in
theorem drawBlocks_zero (message : ℕ → UInt8) (i left j : ℕ) (rng : Curve.Rfc6979) :
    drawBlocks C message i left j rng =
      ((drawBlocks C (fun _ => 0) i left j rng).1.mapIdx fun l block =>
        withMessage message (i * 4 + j + l) block, (drawBlocks C (fun _ => 0) i left j rng).2) := by
  induction left generalizing j rng with
  | zero => rfl
  | succ left ih =>
    have hsame : ∀ block : Bytes, block.mapIdx (fun _ t => t ^^^ 0) = block := fun block =>
      List.ext_getElem (by simp) fun l _ _ => by simp
    have hnext : ∀ l, i * 4 + (j + 1) + l = i * 4 + j + (l + 1) := fun l => by omega
    simp only [drawBlocks, ih (j + 1), hsame, List.mapIdx_cons, Nat.add_zero, hnext]
    rfl

omit [Module (ZMod n) E] [DecidableEq E] in
/-- The verifier draws the secrets of the signer, and the blocks without the message. -/
theorem genrandRings_zero {fuel rings : ℕ} (message : ℕ → UInt8) {i : ℕ} {acc : ZMod n}
    {rng : Curve.Rfc6979} {rsizes : List ℕ} (hsizes : ∀ r ∈ rsizes.dropLast, r = 4) :
    genrandRings C fuel rings message i acc rng rsizes =
      (genrandRings C fuel rings (fun _ => 0) i acc rng rsizes).map fun (secs, blocks) =>
        (secs, blocks.mapIdx fun l block => withMessage message (i * 4 + l) block) := by
  induction rsizes generalizing i acc rng with
  | nil => rfl
  | cons rsize rsizes ih =>
    rw [genrandRings, genrandRings]
    cases hdigit : drawDigit C fuel (decide (i < rings - 1)) acc rng with
    | none => rfl
    | some drawn =>
      obtain ⟨sec, acc', rng'⟩ := drawn
      have hlen := (length_drawBlocks (C := C) (fun _ => 0) i rsize 0 rng').1
      simp only [Option.bind_eq_bind, Option.bind_some, drawBlocks_zero message i rsize 0 rng']
      cases rsizes with
      | nil =>
        simp only [genrandRings, Option.bind_some, Option.pure_def, Option.map_some, List.append_nil,
          Nat.add_zero]
      | cons next rsizes =>
        rw [List.dropLast_cons_cons] at hsizes
        have hrsize : rsize = 4 := hsizes rsize List.mem_cons_self
        rw [ih fun r hr => hsizes r (List.mem_cons_of_mem _ hr)]
        cases genrandRings C fuel rings (fun _ => 0) (i + 1) acc' (drawBlocks C (fun _ => 0) i rsize 0 rng').2
            (next :: rsizes) with
        | none => rfl
        | some later =>
          have hindex : ∀ l, (i + 1) * 4 + l = i * 4 + (l + rsize) := fun l => by omega
          simp only [Option.map_some, Option.bind_some, Option.pure_def, List.mapIdx_append, hlen,
            Nat.add_zero, hindex]

/-! ## The message -/

/-- The part of a message that is in a block. -/
def messageBytes (message : ℕ → UInt8) (p : ℕ) : Bytes := (List.range 32).map fun b => message (p * 32 + b)

/-- A block and what it was combined with reveal the message. -/
theorem ch32xor_withMessage (message : ℕ → UInt8) (p : ℕ) {block : Bytes} (h : block.length = 32) :
    ch32xor (withMessage message p block) block = messageBytes message p := by
  refine List.ext_getElem (by simp [ch32xor, withMessage, messageBytes, h]) fun b hb hb' => ?_
  simp only [ch32xor, withMessage, messageBytes, List.getElem_zipWith, List.getElem_mapIdx, List.getElem_map,
    List.getElem_range]
  have hlt : b < block.length := by
    rw [h]
    simpa [messageBytes] using hb'
  rw [UInt8.xor_comm block[b], UInt8.xor_assoc, UInt8.xor_self, UInt8.xor_zero]

theorem withMessage_eq_self {message : ℕ → UInt8} {p : ℕ} {block : Bytes} (hlen : block.length = 32)
    (h : ∀ b < 32, message (p * 32 + b) = 0) : withMessage message p block = block := by
  refine List.ext_getElem (by simp [withMessage]) fun b hb hb' => ?_
  simp only [withMessage, List.getElem_mapIdx]
  rw [h b (hlen ▸ hb'), UInt8.xor_zero]

theorem messageBytes_zero {message : ℕ → UInt8} {p : ℕ} (h : ∀ b < 32, message (p * 32 + b) = 0) :
    messageBytes message p = List.replicate 32 0 := by
  rw [messageBytes, List.map_congr_left fun b hb => h b (List.mem_range.mp hb), List.map_const',
    List.length_range]

theorem flatten_messageBytes (message : ℕ → UInt8) (k : ℕ) :
    ((List.range k).map (messageBytes message)).flatten = (List.range (k * 32)).map message := by
  induction k with
  | zero => rfl
  | succ k ih =>
    rw [List.range_succ, List.map_append, List.flatten_append, ih, Nat.succ_mul, List.range_add,
      List.map_append, List.map_singleton, List.flatten_singleton, messageBytes, List.map_map]
    rfl

theorem map_getD_range {m : ℕ} (message : Bytes) (h : message.length ≤ m) :
    (List.range m).map (fun at' => message.getD at' 0) =
      message ++ List.replicate (m - message.length) 0 := by
  refine List.ext_getElem (by simp; omega) fun i hi hi' => ?_
  rw [List.getElem_map, List.getElem_range]
  by_cases hlt : i < message.length
  · rw [List.getElem_append_left hlt, List.getD_eq_getElem _ _ hlt]
  · rw [List.getElem_append_right (Nat.not_lt.mp hlt), List.getElem_replicate,
      List.getD_eq_default _ _ (Nat.not_lt.mp hlt)]

/-- The bytes of a value with its mark. -/
def encoded (v : UInt64) : Bytes :=
  128 :: List.replicate 7 0 ++ (ofNat 8 v.toNat ++ (ofNat 8 v.toNat ++ ofNat 8 v.toNat))

/-- An encoded value is found. -/
theorem encodingAt_of_encoded {s : ZMod n} {block : Bytes} {v : UInt64}
    (h : ch32xor (Curve.scalarGetB32 s) block = encoded v) : encodingAt s block = some v := by
  have hlen : (ofNat 8 v.toNat).length = 8 := length_ofNat 8 _
  have hfirst : (encoded v).headD 0 &&& 128 ≠ 0 := by simp [encoded]
  have h8 : ((encoded v).drop 8).take 8 = ofNat 8 v.toNat := by simp [encoded, hlen]
  have h16 : ((encoded v).drop 16).take 8 = ofNat 8 v.toNat := by simp [encoded, hlen]
  have h24 : ((encoded v).drop 24).take 8 = ofNat 8 v.toNat := by
    rw [encoded, ← List.append_assoc, ← List.append_assoc, List.drop_left' (by simp),
      List.take_of_length_le hlen.le]
  have hvalue : UInt64.ofNat (asNat (ofNat 8 v.toNat)) = v := by
    rw [asNat_ofNat v.toNat_lt, UInt64.ofNat_toNat]
  rw [encodingAt, h, h8, h16, h24, if_pos ⟨hfirst, rfl, rfl⟩, hvalue]

/-! ## What was drawn again -/

theorem dropLast_rsizes {p : Params} (hp : p.Rings) : ∀ r ∈ p.rsizes.dropLast, r = 4 := by
  rw [hp.rsizes_eq, ringSizes]
  split
  · split
    · rw [List.dropLast_concat]
      exact fun r hr => List.eq_of_mem_replicate hr
    · rw [List.append_nil]
      exact fun r hr => List.eq_of_mem_replicate (List.mem_of_mem_dropLast hr)
  · exact fun r hr => absurd hr List.not_mem_nil

/-- The bytes of a block that is a response are those of the response. -/
theorem scalarGetB32_responseAt {blocks : List Bytes} (h : validBlocks n blocks = true) {p : ℕ}
    (hp : p < blocks.length) (hlen : (blocks.getD p []).length = 32) :
    Curve.scalarGetB32 (responseAt n blocks p) = blocks.getD p [] := by
  have hmem : blocks.getD p [] ∈ blocks := by
    rw [List.getD_eq_getElem _ _ hp]
    exact List.getElem_mem hp
  have hvalid := List.all_eq_true.mp h _ hmem
  simp only [Curve.scalarSetB32, Bool.and_eq_true, Bool.not_eq_true', decide_eq_false_iff_not,
    Nat.not_le] at hvalid
  rw [responseAt, Curve.scalarSetB32, Curve.scalarGetB32, ZMod.val_cast_of_lt hvalid.1]
  conv_lhs => rw [← hlen]
  exact ofNat_asNat _

variable {fuel plen : ℕ} {minValue value : UInt64} {commit genp : E} {blind nonce message : Bytes}
  {exp minBits : ℤ} {q : Prepared n E}

/-- The verifier's random values, beside those of the signer. -/
structure Regenerated (n : ℕ) (q : Prepared n E) (blind message : Bytes) (secs : List (ZMod n))
    (plain : List Bytes) : Prop where
  secs_length : secs.length = q.params.rings
  secs_sum : secs.sum = 0
  secs_before : ∀ l < q.params.rings - 1, secs.getD l 0 = q.secs.getD l 0
  secs_last : q.secs.getD (q.params.rings - 1) 0 =
    secs.getD (q.params.rings - 1) 0 + (Curve.scalarSetB32 n blind).1
  plain_length : ∀ p < q.params.rsizes.sum, (plain.getD p []).length = 32
  blocks_eq : ∀ p < q.params.rsizes.sum,
    q.blocks.getD p [] = withMessage (prepMessage q.params message) p (plain.getD p [])

omit [DecidableEq E] in
theorem regenerated_of_made (hq : q.Made C fuel plen minValue value commit genp blind nonce message) :
    ∃ secs plain, genrand C fuel (fun _ => 0) q.params.rsizes nonce commit (header q.params) genp =
      some (secs, plain) ∧ Regenerated n q blind message secs plain := by
  obtain ⟨drawn, hgen, hsecs, hcount⟩ := hq.drawn
  rw [genrand, genrandRings_zero _ (dropLast_rsizes hq.rings)] at hgen
  obtain ⟨⟨secs, plain⟩, hplain, heq⟩ := Option.map_eq_some_iff.mp hgen
  obtain ⟨rfl, hblocks⟩ := Prod.mk.inj heq
  obtain ⟨-, hlen, hblock⟩ := genrandRings_spec (Nat.zero_add _) (rsizes_ne_nil hq.rings) hplain
  have hmem : ∀ p (hp : p < q.params.rsizes.sum), (plain.getD p []).length = 32 := fun p hp => by
    rw [← hlen] at hp
    rw [List.getD_eq_getElem _ _ hp]
    exact hblock _ (List.getElem_mem hp)
  have hlast : q.params.rings - 1 = drawn.length := by omega
  refine ⟨_, plain, hplain, ⟨?_, ?_, fun l hl => ?_, ?_, hmem, fun p hp => ?_⟩⟩
  · rw [List.length_append, List.length_singleton, hcount]
  · rw [List.sum_append, List.sum_singleton, add_neg_cancel]
  · rw [hlast] at hl
    rw [hsecs, List.getD_append _ _ _ _ hl, List.getD_append _ _ _ _ hl]
  · rw [hsecs, hlast, List.getD_append_right _ _ _ _ le_rfl, List.getD_append_right _ _ _ _ le_rfl]
    simp
  · have hindex : 0 * 4 + p = p := by omega
    rw [← hlen] at hp
    rw [← hblocks, List.getD_eq_getElem _ _ (by simpa using hp), List.getElem_mapIdx,
      List.getD_eq_getElem _ _ hp, hindex]

/-- The responses of a signer: those of the forged members are the blocks, the others answer their
challenges. -/
structure Signed (q : Prepared n E) (ev : List (ZMod n)) (s : ℕ → ZMod n) : Prop where
  forged : ∀ p, (∀ i < q.params.rings, p ≠ i * 4 + q.params.secidx i) → s p = responseAt n q.blocks p
  answered : ∀ i < q.params.rings, ev.getD (i * 4 + q.params.secidx i) 0 ≠ 0 ∧
    s (i * 4 + q.params.secidx i) = responseAt n q.blocks (i * 4 + q.params.secidx i) -
      ev.getD (i * 4 + q.params.secidx i) 0 * q.secs.getD i 0

theorem signed_of_sign (hq : q.Made C fuel plen minValue value commit genp blind nonce message)
    {m e0 : Bytes} {s : ℕ → ZMod n} {ev : List (ZMod n)} (hsign : C.borromeanSign m q.responses
      (fun j => (q.pubs genp).getD j 0) q.nonces (fun i => q.secs.getD i 0) q.params.secidx
      q.params.rsizes = some (e0, s))
    (hresponds : Curve.Responds s q.nonces (fun i => q.secs.getD i 0) q.params.secidx 0 0 q.params.rsizes
      ev) : Signed q ev s := by
  refine ⟨fun p hp => ?_, fun i hi => ?_⟩
  · have hfar : ¬ Curve.SecretAt q.params.secidx 0 0 q.params.rsizes p := by
      rw [secretAt_iff hq.rings]
      rintro ⟨i, hi, heq⟩
      exact hp i hi heq
    rw [(C.borromeanSign_frame hsign).2 p hfar, Prepared.responses_of_forged hp]
  · obtain ⟨e, he, hne, hs⟩ := Curve.response_of_responds hresponds hi
    rw [sum_take_rsizes hq.rings hi, Nat.zero_add] at he hs
    rw [Nat.zero_add] at hs
    have hev : ev.getD (i * 4 + q.params.secidx i) 0 = e := by rw [List.getD_eq_getElem?_getD, he]; rfl
    rw [hev]
    exact ⟨hne, hs⟩

/-- The members of a ring have at most four points, and all of them are there. -/
theorem member_lt {p : Params} (hp : p.Rings) {l j : ℕ} (hl : l < p.rsizes.length) (hj : j < p.rsizes[l]) :
    j < 4 ∧ l * 4 + j < p.rsizes.sum := by
  have hsize : ∀ r ∈ p.rsizes, r ≤ 4 := by
    intro r hr
    rw [hp.rsizes_eq, ringSizes] at hr
    split at hr
    · rcases List.mem_append.mp hr with hr | hr
      · rw [List.eq_of_mem_replicate hr]
      · split at hr <;> simp at hr
        omega
    · simp at hr
      omega
  refine ⟨lt_of_lt_of_le hj (hsize _ (List.getElem_mem hl)), ?_⟩
  have hsplit := List.sum_take_add_sum_drop p.rsizes (l + 1)
  rw [List.sum_take_succ _ _ hl, sum_take_rsizes hp hl] at hsplit
  omega

/-- Reading the message member by member. -/
theorem Rewinding.readMessage_eq (w : Rewinding n) {value : UInt64} {skip1 skip2 i npub : ℕ}
    {rsizes : List ℕ} (f : ℕ → Bytes)
    (h : ∀ l (hl : l < rsizes.length), ∀ j < rsizes[l],
      w.memberMessage value skip1 skip2 (i + l) (npub + (rsizes.take l).sum + j) j =
        f (npub + (rsizes.take l).sum + j)) :
    w.readMessage value skip1 skip2 i npub rsizes = ((List.range rsizes.sum).map fun p => f (npub + p)).flatten := by
  induction rsizes generalizing i npub with
  | nil => rfl
  | cons rsize rsizes ih =>
    have hring : ((List.range rsize).map fun j => w.memberMessage value skip1 skip2 i (npub + j) j) =
        (List.range rsize).map fun j => f (npub + j) :=
      List.map_congr_left fun j hj => by simpa using h 0 (Nat.zero_lt_succ _) j (by simpa using hj)
    have hlater := @ih (i + 1) (npub + rsize) fun l hl j hj => by
      have hl' := h (l + 1) (Nat.succ_lt_succ hl) j (by simpa using hj)
      rw [List.take_succ_cons, List.sum_cons] at hl'
      rwa [Nat.add_right_comm i, Nat.add_assoc i, Nat.add_assoc npub]
    rw [readMessage, hring, hlater, List.sum_cons, List.range_add, List.map_append, List.flatten_append,
      List.map_map]
    simp only [Function.comp_def, Nat.add_assoc]

/-! ## The last ring -/

/-- The member of the last ring that the value is encoded in. -/
def encodingMember (p : Params) : ℕ :=
  let idx := p.rsizes.getLastD 0 - 1
  if p.secidx (p.rings - 1) = idx then idx - 1 else idx

theorem lastSize_cases {p : Params} (hp : p.Rings) :
    p.rsizes = [1] ∨ p.rsizes.getLastD 0 = 2 ∨ p.rsizes.getLastD 0 = 4 := by
  rw [hp.rsizes_eq, ringSizes]
  split
  · split
    · exact .inr (.inl (by simp))
    · next hne hodd =>
      obtain ⟨half, hhalf⟩ : ∃ half, p.mantissa / 2 = half + 1 := ⟨p.mantissa / 2 - 1, by omega⟩
      rw [hhalf, List.append_nil, List.replicate_succ']
      exact .inr (.inr (by simp))
  · exact .inl rfl

theorem getLastD_rsizes {p : Params} (h : p.rings - 1 < p.rsizes.length) :
    p.rsizes.getLastD 0 = p.rsizes[p.rings - 1] := by
  rw [List.getLastD_eq_getLast?, List.getLast?_eq_getElem?, ← Params.rings, List.getElem?_eq_getElem h,
    Option.getD_some]

theorem sum_rsizes {p : Params} (hp : p.Rings) : p.rsizes.sum = (p.rings - 1) * 4 + p.rsizes.getLastD 0 := by
  have hpos : 0 < p.rings := List.length_pos_iff.mpr (rsizes_ne_nil hp)
  have hlt : p.rings - 1 < p.rsizes.length := Nat.sub_lt hpos Nat.one_pos
  have hsplit := List.sum_take_add_sum_drop p.rsizes (p.rings - 1 + 1)
  have hend : p.rsizes.drop (p.rings - 1 + 1) = [] := List.drop_eq_nil_of_le (by rw [Params.rings] at *; omega)
  rw [List.sum_take_succ _ _ hlt, sum_take_rsizes hp hlt, ← getLastD_rsizes hlt, hend, List.sum_nil] at hsplit
  omega

/-- The value is encoded in a member that is not the secret one. -/
theorem encodingMember_spec {p : Params} (hp : p.Rings) (hranged : p.rsizes.getLastD 0 > 1) :
    encodingMember p < p.rsizes.getLastD 0 ∧ encodingMember p ≠ p.secidx (p.rings - 1) ∧
      p.secidx (p.rings - 1) < p.rsizes.getLastD 0 := by
  have hpos : 0 < p.rings := List.length_pos_iff.mpr (rsizes_ne_nil hp)
  have hlt : p.rings - 1 < p.rsizes.length := Nat.sub_lt hpos Nat.one_pos
  have hidx := hp.secidx_lt _ hlt
  rw [← getLastD_rsizes hlt] at hidx
  unfold encodingMember
  simp only
  split <;> omega

/-- The block of that member has the value. -/
theorem messageBytes_encoding {p : Params} (hranged : p.rsizes.getLastD 0 > 1) (message : Bytes) :
    messageBytes (prepMessage p message) ((p.rings - 1) * 4 + encodingMember p) = encoded p.v := by
  have hidx : encodingIdx p = ((p.rings - 1) * 4 + encodingMember p) * 32 := rfl
  have hbyte : ∀ b < 32, prepMessage p message (((p.rings - 1) * 4 + encodingMember p) * 32 + b) =
      if b = 0 then 128 else if b < 8 then 0 else (ofNat 8 p.v.toNat).getD (b % 8) 0 := by
    intro b hb
    rw [prepMessage, if_pos ⟨hranged, by omega, by omega⟩, hidx, Nat.add_sub_cancel_left]
  rw [messageBytes, List.map_congr_left fun b hb => hbyte b (List.mem_range.mp hb)]
  obtain ⟨b0, b1, b2, b3, b4, b5, b6, b7, hbytes⟩ : ∃ b0 b1 b2 b3 b4 b5 b6 b7,
      ofNat 8 p.v.toNat = [b0, b1, b2, b3, b4, b5, b6, b7] := ⟨_, _, _, _, _, _, _, _, rfl⟩
  rw [encoded, hbytes]
  rfl

/-- The other blocks have the message. -/
theorem prepMessage_elsewhere {p : Params} {message : Bytes} {k : ℕ}
    (h : p.rsizes.getLastD 0 > 1 → k ≠ (p.rings - 1) * 4 + encodingMember p) {b : ℕ} (hb : b < 32) :
    prepMessage p message (k * 32 + b) = message.getD (k * 32 + b) 0 := by
  have hidx : encodingIdx p = ((p.rings - 1) * 4 + encodingMember p) * 32 := rfl
  rw [prepMessage, if_neg]
  rintro ⟨hranged, hle, hlt⟩
  have hne := h hranged
  omega

section Recover

variable {secs : List (ZMod n)} {plain : List Bytes} {ev : List (ZMod n)} {s : ℕ → ZMod n}
  (hq : q.Made C fuel plen minValue value commit genp blind nonce message)
  (hr : Regenerated n q blind message secs plain)

include hq hr

omit [DecidableEq E] in
/-- A response that was not computed reveals its part of the message. -/
theorem reveal {p : ℕ} (hp : p < q.params.rsizes.sum) :
    ch32xor (Curve.scalarGetB32 (responseAt n q.blocks p)) (plain.getD p []) =
      messageBytes (prepMessage q.params message) p := by
  have hlen := hr.plain_length p hp
  have hblock := hr.blocks_eq p hp
  have hsize : (q.blocks.getD p []).length = 32 := by rw [hblock, withMessage, List.length_mapIdx, hlen]
  rw [scalarGetB32_responseAt hq.blocks_valid (hq.blocks_length ▸ hp) hsize, hblock,
    ch32xor_withMessage _ _ hlen]

omit [DecidableEq E] in
/-- A forged response reveals its part of the message. -/
theorem reveal_forged (hs : Signed q ev s) {p : ℕ} (hp : p < q.params.rsizes.sum)
    (hforged : ∀ i < q.params.rings, p ≠ i * 4 + q.params.secidx i) :
    ch32xor (Curve.scalarGetB32 (s p)) (plain.getD p []) = messageBytes (prepMessage q.params message) p := by
  rw [hs.forged p hforged, reveal hq hr hp]

omit [DecidableEq E] in
/-- The value is found, unless the response of the secret member reads like one before it. -/
theorem findValue_eq (hs : Signed q ev s) (hranged : q.params.rsizes.getLastD 0 > 1)
    (hclear : q.params.secidx (q.params.rings - 1) = q.params.rsizes.getLastD 0 - 1 →
      encodingAt (s (q.params.rsizes.sum - 1)) (plain.getD (q.params.rsizes.sum - 1) []) = none) :
    (⟨q.params.rsizes, ev, s, secs, plain⟩ : Rewinding n).findValue =
      some (q.params.rsizes.getLastD 0 - 1 - encodingMember q.params, q.params.v) := by
  obtain ⟨hmember, hne, -⟩ := encodingMember_spec hq.rings hranged
  have hsum := sum_rsizes hq.rings
  have hpos : 0 < q.params.rings := List.length_pos_iff.mpr (rsizes_ne_nil hq.rings)
  have hfound : encodingAt (s ((q.params.rings - 1) * 4 + encodingMember q.params))
      (plain.getD ((q.params.rings - 1) * 4 + encodingMember q.params) []) = some q.params.v := by
    refine encodingAt_of_encoded ?_
    rw [reveal_forged hq hr hs (by omega), messageBytes_encoding hranged]
    intro i hi heq
    have hfour := (member_lt hq.rings hi (hq.rings.secidx_lt i hi)).1
    have hlast : (q.params.rings - 1) * 4 + encodingMember q.params < q.params.rsizes.sum := by omega
    have hsizes := lastSize_cases hq.rings
    have hring : i = q.params.rings - 1 := by
      rcases hsizes with hone | htwo | hfour'
      · rw [hone] at hranged
        exact absurd hranged (by decide)
      all_goals omega
    rw [hring] at heq
    omega
  have hidx : (⟨q.params.rsizes, ev, s, secs, plain⟩ : Rewinding n).last * 4 + q.params.rsizes.getLastD 0 - 1 =
      q.params.rsizes.sum - 1 := by
    rw [hsum]
    rfl
  rw [Rewinding.findValue]
  simp only [hidx]
  by_cases hsecret : q.params.secidx (q.params.rings - 1) = q.params.rsizes.getLastD 0 - 1
  · have hat : encodingMember q.params = q.params.rsizes.getLastD 0 - 1 - 1 := if_pos hsecret
    have hbefore : q.params.rsizes.sum - 1 - 1 = (q.params.rings - 1) * 4 + encodingMember q.params := by omega
    rw [hclear hsecret, hbefore, hfound, Option.map_some, hat]
    simp only [Option.some.injEq, Prod.mk.injEq, and_true]
    omega
  · have hat : encodingMember q.params = q.params.rsizes.getLastD 0 - 1 := if_neg hsecret
    have hend : q.params.rsizes.sum - 1 = (q.params.rings - 1) * 4 + encodingMember q.params := by omega
    rw [hend, hfound, hat]
    simp

omit [DecidableEq E] in
/-- A member that is not skipped has its part of the message. -/
theorem memberMessage_eq (hs : Signed q ev s) (skip1 : ℕ) {l j : ℕ} (hl : l < q.params.rsizes.length)
    (hj : j < q.params.rsizes[l]) :
    (⟨q.params.rsizes, ev, s, secs, plain⟩ : Rewinding n).memberMessage q.params.v skip1
        (digitAt q.params.v (q.params.rings - 1) + (q.params.rings - 1) * 4) l (l * 4 + j) j =
      if l * 4 + j = skip1 ∨ l * 4 + j = digitAt q.params.v (q.params.rings - 1) + (q.params.rings - 1) * 4
      then [] else messageBytes (prepMessage q.params message) (l * 4 + j) := by
  obtain ⟨hfour, hlt⟩ := member_lt hq.rings hl hj
  rw [Rewinding.memberMessage]
  split
  · rfl
  · next hskip =>
    rw [← reveal hq hr hlt]
    simp only
    by_cases hdigit : digitAt q.params.v l = j
    · -- the response was computed, and the nonce is recovered
      have hl' : l < q.params.rings - 1 := by
        rw [not_or] at hskip
        by_contra hlast
        have hring : l = q.params.rings - 1 := by rw [Params.rings] at *; omega
        rw [hring] at hdigit hskip
        omega
      obtain ⟨-, hanswer⟩ := hs.answered l hl
      have hsecret : q.params.secidx l = j := by rw [hq.rings.secidx_eq l hl, hdigit]
      rw [hsecret] at hanswer
      rw [if_pos hdigit, recoverK, hr.secs_before l hl', hanswer, mul_comm (q.secs.getD l 0),
        sub_add_cancel]
    · rw [if_neg hdigit, hs.forged]
      intro i hi heq
      have hfour' := (member_lt hq.rings hi (hq.rings.secidx_lt i hi)).1
      obtain rfl : l = i := by omega
      rw [hq.rings.secidx_eq l hi] at heq
      omega

omit [DecidableEq E] in
/-- The message is read with zeros behind it. -/
theorem readMessage_eq (hs : Signed q ev s) (hranged : q.params.rsizes.getLastD 0 > 1) :
    (⟨q.params.rsizes, ev, s, secs, plain⟩ : Rewinding n).readMessage q.params.v
        (encodingMember q.params + (q.params.rings - 1) * 4)
        (digitAt q.params.v (q.params.rings - 1) + (q.params.rings - 1) * 4) 0 0 q.params.rsizes =
      message ++ List.replicate (32 * (q.params.rsizes.sum - 2) - message.length) 0 := by
  obtain ⟨hmember, hne, hsecret⟩ := encodingMember_spec hq.rings hranged
  have hsum := sum_rsizes hq.rings
  have hpos : 0 < q.params.rings := List.length_pos_iff.mpr (rsizes_ne_nil hq.rings)
  have hfits := hq.message_fits
  rw [hq.rings.secidx_eq _ (Nat.sub_lt hpos Nat.one_pos)] at hne hsecret
  rw [Rewinding.readMessage_eq _ (fun p => if p = encodingMember q.params + (q.params.rings - 1) * 4 ∨
    p = digitAt q.params.v (q.params.rings - 1) + (q.params.rings - 1) * 4 then []
    else messageBytes (prepMessage q.params message) p)]
  swap
  · intro l hl j hj
    rw [sum_take_rsizes hq.rings hl, Nat.zero_add, Nat.zero_add]
    exact memberMessage_eq hq hr hs _ hl hj
  generalize digitAt q.params.v (q.params.rings - 1) = digit at hne hsecret ⊢
  -- the rings before the last one have the message
  have hbefore : ∀ p ∈ List.range ((q.params.rings - 1) * 4),
      (if p = encodingMember q.params + (q.params.rings - 1) * 4 ∨ p = digit + (q.params.rings - 1) * 4 then []
        else messageBytes (prepMessage q.params message) p) =
        messageBytes (fun at' => message.getD at' 0) p := by
    intro p hp
    rw [List.mem_range] at hp
    rw [if_neg (by omega)]
    exact List.map_congr_left fun b hb => prepMessage_elsewhere (by omega) (List.mem_range.mp hb)
  -- the other members of the last ring have zeros
  have hlast : ∀ j ∈ List.range (q.params.rsizes.getLastD 0),
      (if (q.params.rings - 1) * 4 + j = encodingMember q.params + (q.params.rings - 1) * 4 ∨
          (q.params.rings - 1) * 4 + j = digit + (q.params.rings - 1) * 4 then []
        else messageBytes (prepMessage q.params message) ((q.params.rings - 1) * 4 + j)) =
        if j = encodingMember q.params ∨ j = digit then [] else List.replicate 32 (0 : UInt8) := by
    intro j hj
    by_cases hskip : j = encodingMember q.params ∨ j = digit
    · rw [if_pos hskip, if_pos (by omega)]
    · rw [if_neg hskip, if_neg (by omega)]
      refine messageBytes_zero fun b hb => ?_
      rw [prepMessage_elsewhere (by omega) hb, List.getD_eq_default _ _ (by omega)]
  simp only [Nat.zero_add]
  rw [hsum, List.range_add, List.map_append, List.map_map, List.flatten_append,
    List.map_congr_left hbefore, flatten_messageBytes, map_getD_range _ (by omega)]
  have hzeros : ∀ size ∈ [2, 4], ∀ a < size, ∀ b < size, a ≠ b →
      ((List.range size).map fun j => if j = a ∨ j = b then [] else List.replicate 32 (0 : UInt8)).flatten =
        List.replicate (32 * (size - 2)) 0 := by decide
  have hsize : q.params.rsizes.getLastD 0 ∈ [2, 4] := by
    rcases lastSize_cases hq.rings with hone | htwo | hfour
    · rw [hone] at hranged
      exact absurd hranged (by decide)
    · rw [htwo]
      decide
    · rw [hfour]
      decide
  have htwo : 2 ≤ q.params.rsizes.getLastD 0 := hranged
  have hrest := hzeros _ hsize _ hmember _ hsecret hne
  rw [← List.map_congr_left hlast] at hrest
  have htotal : 32 * ((q.params.rings - 1) * 4 + q.params.rsizes.getLastD 0 - 2) - message.length =
      (q.params.rings - 1) * 4 * 32 - message.length + 32 * (q.params.rsizes.getLastD 0 - 2) := by omega
  rw [htotal, List.replicate_add, ← hrest, List.append_assoc]
  rfl

omit [DecidableEq E] in
/-- The blinding factor of the last digit is recovered, and with it the one of the value. -/
theorem recoverX_eq [Fact n.Prime] (hs : Signed q ev s) :
    recoverX (responseAt n plain ((q.params.rings - 1) * 4 + q.params.secidx (q.params.rings - 1)))
        (ev.getD ((q.params.rings - 1) * 4 + q.params.secidx (q.params.rings - 1)) 0)
        (s ((q.params.rings - 1) * 4 + q.params.secidx (q.params.rings - 1))) =
      secs.getD (q.params.rings - 1) 0 + (Curve.scalarSetB32 n blind).1 := by
  have hpos : 0 < q.params.rings := List.length_pos_iff.mpr (rsizes_ne_nil hq.rings)
  have hlast : q.params.rings - 1 < q.params.rings := Nat.sub_lt hpos Nat.one_pos
  have hlt := (member_lt hq.rings hlast (hq.rings.secidx_lt _ hlast)).2
  have hfits := hq.message_fits
  obtain ⟨hne, hanswer⟩ := hs.answered _ hlast
  -- no part of the message is in the block of the secret member
  have hblock : q.blocks.getD ((q.params.rings - 1) * 4 + q.params.secidx (q.params.rings - 1)) [] =
      plain.getD ((q.params.rings - 1) * 4 + q.params.secidx (q.params.rings - 1)) [] := by
    rw [hr.blocks_eq _ hlt]
    refine withMessage_eq_self (hr.plain_length _ hlt) fun b hb => ?_
    rw [prepMessage_elsewhere (fun hranged => ?_) hb, List.getD_eq_default _ _ (by omega)]
    have hmember := (encodingMember_spec hq.rings hranged).2.1
    omega
  rw [hanswer, ← hr.secs_last, recoverX, responseAt, responseAt, hblock, neg_sub, sub_add_cancel,
    mul_comm (ev.getD _ 0), mul_inv_cancel_right₀ hne]

end Recover

/-! ## Recovering -/

/-- The response of the secret member reads like an encoded value before the one that is one. -/
def Opened.Mistaken (C : Curve n E) (o : Opened n E) (fuel : ℕ) (nonce : Bytes) (commit : E) (proof : Bytes)
    (genp : E) (value : UInt64) : Prop :=
  o.rsizes.getLastD 0 > 1 ∧
    digitAt ((value - o.header.minValue) / o.header.scale) (o.rsizes.length - 1) = o.rsizes.getLastD 0 - 1 ∧
    ∃ secs blocks, o.regenerate C fuel nonce commit proof genp = some (secs, blocks) ∧
      encodingAt (o.responses.getD (o.rsizes.sum - 1) 0) (blocks.getD (o.rsizes.sum - 1) []) ≠ none

/-- The digits of a value are what the minimum and the scale leave of it. -/
theorem v_eq {p : Params} (hs : p.Splits minValue value) : (value - p.minValue) / p.scale = p.v := by
  have hvalue := hs.value_eq
  have hpos : 0 < p.scale.toNat := by
    rw [hs.scale_eq]
    exact Nat.pos_of_neZero _
  have hle : p.minValue ≤ value := UInt64.le_iff_toNat_le.mpr (by omega)
  rw [← UInt64.toNat_inj, UInt64.toNat_div, UInt64.toNat_sub_of_le _ _ hle, ← hvalue, Nat.add_sub_cancel,
    Nat.mul_div_cancel _ hpos]

theorem value_eq {p : Params} (hs : p.Splits minValue value) : p.v * p.scale + p.minValue = value := by
  have hvalue := hs.value_eq
  have hlt := value.toNat_lt
  have hproduct : p.v.toNat * p.scale.toNat < 2 ^ 64 := by omega
  rw [← UInt64.toNat_inj, UInt64.toNat_add, UInt64.toNat_mul, Nat.mod_eq_of_lt hproduct, hvalue,
    Nat.mod_eq_of_lt hlt]

section Recover

variable {secs : List (ZMod n)} {plain : List Bytes} {ev : List (ZMod n)} {s : ℕ → ZMod n}
  (hq : q.Made C fuel plen minValue value commit genp blind nonce message)
  (hr : Regenerated n q blind message secs plain)

include hq hr

omit [DecidableEq E] in
/-- What is recovered from the random values and the responses. -/
theorem rewind_eq [Fact n.Prime] (hs : Signed q ev s) (mlen : ℕ)
    (hclear : q.params.rsizes.getLastD 0 > 1 →
      q.params.secidx (q.params.rings - 1) = q.params.rsizes.getLastD 0 - 1 →
      encodingAt (s (q.params.rsizes.sum - 1)) (plain.getD (q.params.rsizes.sum - 1) []) = none) :
    (⟨q.params.rsizes, ev, s, secs, plain⟩ : Rewinding n).rewind mlen = some {
      blind := (Curve.scalarSetB32 n blind).1
      value := q.params.v
      message := (message ++ List.replicate (32 * (q.params.rsizes.sum - 2) - message.length) 0).take mlen } := by
  have hpos : 0 < q.params.rings := List.length_pos_iff.mpr (rsizes_ne_nil hq.rings)
  have hlast : q.params.rings - 1 < q.params.rings := Nat.sub_lt hpos Nat.one_pos
  have hblind := recoverX_eq hq hr hs
  rw [hq.rings.secidx_eq _ hlast] at hblind
  rw [Rewinding.rewind]
  by_cases hranged : q.params.rsizes.getLastD 0 > 1
  · have hexact : ¬ (q.params.rsizes.length = 1 ∧ q.params.rsizes.headD 0 = 1) := by
      rintro ⟨hone, hhead⟩
      obtain ⟨r, hr⟩ := List.length_eq_one_iff.mp hone
      rw [hr] at hranged hhead
      simp at hranged hhead
      omega
    obtain ⟨hmember, hne, hsecret⟩ := encodingMember_spec hq.rings hranged
    rw [hq.rings.secidx_eq _ hlast] at hne
    have hlast' : (⟨q.params.rsizes, ev, s, secs, plain⟩ : Rewinding n).last = q.params.rings - 1 := rfl
    have hskip : q.params.rsizes.getLastD 0 - 1 - (q.params.rsizes.getLastD 0 - 1 - encodingMember q.params) =
        encodingMember q.params := by omega
    rw [if_neg hexact, findValue_eq hq hr hs hranged (hclear hranged), Option.bind_some]
    simp only [hlast', hskip]
    rw [if_neg hne, readMessage_eq hq hr hs hranged, Nat.add_comm (digitAt _ _), hblind,
      add_right_comm, add_neg_cancel, zero_add]
  · -- a proof for an exact value has the blinding factor alone
    have hone : q.params.rsizes = [1] := by
      rcases lastSize_cases hq.rings with hone | htwo | hfour
      · exact hone
      · exact absurd (htwo ▸ by decide) hranged
      · exact absurd (hfour ▸ by decide) hranged
    have hrings : q.params.rings = 1 := by rw [Params.rings, hone]; rfl
    have hv : q.params.v = 0 := by
      have hmantissa : q.params.mantissa = 0 := by
        have hranged' := ranged_iff hq.rings
        rw [hone] at hranged'
        by_contra hne
        exact absurd (hranged'.mpr hne) (by decide)
      have hlt := hq.splits.v_lt
      rw [hmantissa, pow_zero] at hlt
      rw [← UInt64.toNat_inj]
      exact Nat.lt_one_iff.mp hlt
    have hmessage : message = [] := by
      have hfits := hq.message_fits
      rw [hrings] at hfits
      exact List.length_eq_zero_iff.mp (Nat.le_zero.mp hfits)
    have hzero : secs.getD 0 0 = 0 := by
      obtain ⟨a, ha⟩ := List.length_eq_one_iff.mp (hr.secs_length.trans hrings)
      have hsum := hr.secs_sum
      rw [ha, List.sum_singleton] at hsum
      rw [ha, hsum]
      rfl
    have hdigit : digitAt 0 0 = 0 := by decide
    rw [hrings, hv, hdigit, hzero, zero_add] at hblind
    have hblind' : recoverX (responseAt n plain 0) (ev.getD 0 0) (s 0) = (Curve.scalarSetB32 n blind).1 := hblind
    rw [if_pos (by rw [hone]; exact ⟨rfl, rfl⟩), hblind', hone, hv, hmessage]
    simp

end Recover

/-- Whoever has the nonce of a proof recovers the blinding factor, the value and the message with zeros
behind it, as far as there is room. The proof must be accepted, and the response of a secret member must
not read like a value. -/
theorem rewind_recovers [Fact n.Prime] {extraCommit proof : Bytes} {o : Opened n E} (mlen : ℕ)
    (hsign : signImpl C fuel plen minValue commit blind nonce exp minBits value message extraCommit genp =
      some proof)
    (hcommit : commit = (Curve.scalarSetB32 n blind).1 • C.G + value.toNat • genp)
    (hlen : blind.length = 32) (hinfinity : commit ≠ 0)
    (hopen : openProof C commit proof extraCommit genp = some o) (hfinite : 0 ∉ o.pubs genp)
    (hclear : ¬ o.Mistaken C fuel nonce commit proof genp value) :
    rewindImpl C fuel mlen commit proof extraCommit nonce genp = some {
      minValue := o.header.minValue
      maxValue := o.header.maxValue
      blind
      value
      message := (message ++ List.replicate (32 * (o.rsizes.sum - 2) - message.length) 0).take mlen } := by
  obtain ⟨q, e0, s, hq, hring, rfl⟩ := exists_of_signImpl hsign
  obtain ⟨o', hopen', hheader, hpubs, hrsizes, hresponses, hverify⟩ := hq.verify_proof hring hcommit
  obtain rfl : o = o' := Option.some.inj (hopen.symm.trans hopen')
  rw [hpubs] at hfinite
  obtain ⟨es, hes, hresponds⟩ := hq.verify_of_sign hring hfinite
  obtain ⟨secs, plain, hgen, hr⟩ := regenerated_of_made hq
  have hs := signed_of_sign hq hring hresponds
  have htake : (q.proof C e0 s).take (header q.params).length = header q.params := List.take_left
  have hregenerate : o.regenerate C fuel nonce commit (q.proof C e0 s) genp = some (secs, plain) := by
    rw [Opened.regenerate, hrsizes, hheader]
    show genrand C fuel (fun _ => 0) q.params.rsizes nonce commit
      ((q.proof C e0 s).take (header q.params).length) genp = some (secs, plain)
    rw [htake, hgen]
  have hpos : 0 < q.params.rings := List.length_pos_iff.mpr (rsizes_ne_nil hq.rings)
  have hrecovered := rewind_eq hq hr hs mlen fun hranged hsecret => by
    by_contra hfound
    refine hclear ⟨by rwa [hrsizes], ?_, secs, plain, hregenerate, by rwa [hrsizes, hresponses]⟩
    rw [hrsizes, hheader]
    show digitAt ((value - q.params.minValue) / q.params.scale) (q.params.rings - 1) = _
    rw [v_eq hq.splits, ← hq.rings.secidx_eq _ (Nat.sub_lt hpos Nat.one_pos), hsecret]
  have hblind : Curve.scalarGetB32 (Curve.scalarSetB32 n blind).1 = blind := by
    have hfits := hq.blind_fits
    simp only [Curve.scalarSetB32, decide_eq_false_iff_not, Nat.not_le] at hfits
    rw [Curve.scalarSetB32, Curve.scalarGetB32, ZMod.val_cast_of_lt hfits]
    conv_lhs => rw [← hlen]
    exact ofNat_asNat _
  have hvalue : q.params.v * o.header.scale + o.header.minValue = value := by
    rw [hheader]
    exact value_eq hq.splits
  have hpoint : pedersenEcmult C (Curve.scalarSetB32 n blind).1 value genp = commit := hcommit.symm
  have hs' : (fun j => o.responses.getD j 0) = s := funext hresponses
  rw [rewindImpl, hopen, Option.bind_some, hverify, hes, Option.bind_some, hregenerate, Option.bind_some]
  simp only
  rw [hs', hrsizes, hrecovered, Option.bind_some]
  simp only
  rw [hvalue, hpoint, hblind, if_neg (by simp [hinfinity])]

/-- A proof for the value three, of two digits and with a message. -/
theorem rewind_recovers_three : ∃ proof, signImpl orderCurve 1 1000 0 14 (ofNat 32 5) (ofNat 32 7) 0 3 3
      [1, 2] [] 3 = some proof ∧
    rewindImpl orderCurve 1 5 14 proof [] (ofNat 32 7) 3 = some {
      minValue := 0
      maxValue := 7
      blind := ofNat 32 5
      value := 3
      message := [1, 2, 0, 0, 0] } := by
  have hmade : ((signImpl orderCurve 1 1000 0 14 (ofNat 32 5) (ofNat 32 7) 0 3 3 [1, 2] [] 3).bind fun proof =>
      (openProof orderCurve 14 proof [] 3).map fun o => decide (0 ∉ o.pubs 3 ∧ o.header.minValue = 0 ∧
        o.header.maxValue = 7 ∧ o.header.scale = 1 ∧ o.rsizes = [4, 2])) = some true := by
    decide +kernel
  obtain ⟨proof, hsign, hmade⟩ := Option.bind_eq_some_iff.mp hmade
  obtain ⟨o, hopen, hfacts⟩ := Option.map_eq_some_iff.mp hmade
  obtain ⟨hfinite, hmin, hmax, hscale, hrsizes⟩ := of_decide_eq_true hfacts
  refine ⟨proof, hsign, ?_⟩
  have hclear : ¬ o.Mistaken orderCurve 1 (ofNat 32 7) 14 proof 3 3 := by
    rintro ⟨-, hdigit, -⟩
    rw [hmin, hscale, hrsizes] at hdigit
    exact absurd hdigit (by decide)
  rw [rewind_recovers 5 hsign (by decide +kernel) (length_ofNat 32 5) (by decide +kernel) hopen hfinite hclear,
    hmin, hmax, hrsizes]
  rfl

end Rangeproof

end GrinDotnet
