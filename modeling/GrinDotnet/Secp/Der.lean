import Mathlib.Data.List.GetD
import GrinDotnet.Secp.Curve

/-!
# The encoding of signatures

`secp256k1_ecdsa_sig_serialize` and `secp256k1_ecdsa_sig_parse`: a pair of scalars as a sequence of two
integers. An integer has as many bytes as it needs, and one more when the first bit would be set.

Results:
1. `trim_pad`, `minimal_trim`: the shortest bytes of a number, and that there are no others.
2. `der_canonical`: every pair is read back, and a pair without zeros has one encoding.
-/

namespace GrinDotnet

open BigEndian

namespace Der

/-! ## Parsing -/

/-- The loop of the long form: the length. -/
def readLenLong : ℕ → ℕ → Bytes → Option (ℕ × Bytes)
  | 0, ret, sig => if ret < 128 then none else some (ret, sig)
  | lenleft + 1, ret, sig =>
    let ret := ret * 256 + (sig.headD 0).toNat
    if ret + (lenleft + 1) > sig.length then none else readLenLong lenleft ret sig.tail

/-- `secp256k1_der_read_len`: the length, and what is behind it. -/
def readLen : Bytes → Option (ℕ × Bytes)
  | [] => none
  | b1 :: sig =>
    if b1 = 0xFF then none
    else if b1 &&& 0x80 = 0 then some (b1.toNat, sig)
    else if b1 = 0x80 then none
    else
      let lenleft := (b1 &&& 0x7F).toNat
      if lenleft > sig.length ∨ sig.headD 0 = 0 ∨ lenleft > 8 then none else readLenLong lenleft 0 sig

/-- `secp256k1_der_parse_integer`: the scalar, zero where there is none, and what is behind it. -/
def parseInteger (n : ℕ) : Bytes → Option (ZMod n × Bytes)
  | [] => none
  | tag :: sig =>
    if tag ≠ 0x02 then none
    else
      (readLen sig).bind fun (rlen, sig) =>
        if rlen = 0 ∨ rlen > sig.length then none
        else if sig.headD 0 = 0 ∧ rlen > 1 ∧ sig.getD 1 0 &&& 0x80 = 0 then none
        else if sig.headD 0 = 0xFF ∧ rlen > 1 ∧ sig.getD 1 0 &&& 0x80 = 0x80 then none
        else
          let body := (sig.take rlen).dropWhile (· = 0)
          let (r, overflow) := Curve.scalarSetB32 n (List.replicate (32 - body.length) 0 ++ body)
          let overflow := sig.headD 0 &&& 0x80 = 0x80 ∨ body.length > 32 ∨ overflow
          some (if overflow then 0 else r, sig.drop rlen)

/-- `secp256k1_ecdsa_sig_parse`. -/
def sigParse (n : ℕ) : Bytes → Option (ZMod n × ZMod n)
  | [] => none
  | tag :: sig =>
    if tag ≠ 0x30 then none
    else
      (readLen sig).bind fun (rlen, sig) =>
        if rlen > sig.length ∨ rlen ≠ sig.length then none
        else
          (parseInteger n sig).bind fun (rr, sig) =>
            (parseInteger n sig).bind fun (rs, sig) => if sig ≠ [] then none else some (rr, rs)

/-! ## Serializing -/

/-- The loop that takes leading zeros off an integer. -/
def trim : Bytes → Bytes
  | a :: b :: rest => if a = 0 ∧ b < 0x80 then trim (b :: rest) else a :: b :: rest
  | bytes => bytes

variable {n : ℕ}

/-- The bytes of an integer. -/
def integer (a : ZMod n) : Bytes := trim (0 :: Curve.scalarGetB32 a)

/-- An integer behind its tag and its length. -/
def tagged (a : ZMod n) : Bytes := 0x02 :: UInt8.ofNat (integer a).length :: integer a

/-- `secp256k1_ecdsa_sig_serialize` into a buffer of `size`. -/
def sigSerialize (size : ℕ) (ar as : ZMod n) : Option Bytes :=
  if size < 6 + (integer as).length + (integer ar).length then none
  else some (0x30 :: UInt8.ofNat (4 + (integer as).length + (integer ar).length) :: (tagged ar ++ tagged as))

/-! ## The shortest bytes of a number -/

/-- The bytes are the shortest ones of a number that is not negative. -/
structure Minimal (bytes : Bytes) : Prop where
  ne_nil : bytes ≠ []
  nonneg : bytes.headD 0 < 0x80
  shortest : bytes.headD 0 = 0 → 1 < bytes.length → ¬ bytes.getD 1 0 < 0x80

theorem trim_of_minimal {bytes : Bytes} (h : Minimal bytes) : trim bytes = bytes := by
  cases bytes with
  | nil => rfl
  | cons a rest =>
    cases rest with
    | nil => rfl
    | cons b rest =>
      rw [trim, if_neg]
      rintro ⟨rfl, hb⟩
      exact h.shortest rfl (by simp) hb

/-- The zeros before the shortest bytes are taken off. -/
theorem trim_pad {bytes : Bytes} (h : Minimal bytes) (k : ℕ) : trim (List.replicate k 0 ++ bytes) = bytes := by
  induction k with
  | zero => exact trim_of_minimal h
  | succ k ih =>
    obtain ⟨b, rest, hrest⟩ := List.exists_cons_of_ne_nil
      (fun hnil : List.replicate k 0 ++ bytes = [] => h.ne_nil (List.append_eq_nil_iff.mp hnil).2)
    have hb : b < 0x80 := by
      cases k with
      | zero =>
        have hnonneg := h.nonneg
        rw [List.replicate_zero, List.nil_append] at hrest
        rwa [hrest] at hnonneg
      | succ k =>
        rw [List.replicate_succ, List.cons_append] at hrest
        rw [← (List.cons.inj hrest).1]
        decide
    rw [List.replicate_succ, List.cons_append, hrest, trim, if_pos ⟨rfl, hb⟩, ← hrest, ih]

theorem minimal_trim {a : UInt8} {rest : Bytes} (h : a < 0x80) : Minimal (trim (a :: rest)) := by
  induction rest generalizing a with
  | nil => exact ⟨List.cons_ne_nil _ _, h, fun _ hlen => absurd hlen (lt_irrefl 1)⟩
  | cons b rest ih =>
    rw [trim]
    split
    · next hzero => exact ih hzero.2
    · next hne => exact ⟨List.cons_ne_nil _ _, h, fun hzero _ hb => hne ⟨hzero, hb⟩⟩

theorem ofNat_asNat_of_length {bytes : Bytes} {k : ℕ} (h : bytes.length = k) : ofNat k (asNat bytes) = bytes := by
  subst h
  exact ofNat_asNat bytes

theorem asNat_zero_cons (rest : Bytes) : asNat (0 :: rest) = asNat rest := by
  have happend := asNat_append [0] rest
  have hzero : asNat [0] = 0 := rfl
  rw [hzero, Nat.zero_mul, Nat.zero_add] at happend
  exact happend

theorem asNat_replicate (k : ℕ) (rest : Bytes) : asNat (List.replicate k 0 ++ rest) = asNat rest := by
  induction k with
  | zero => rfl
  | succ k ih => rw [List.replicate_succ, List.cons_append, asNat_zero_cons, ih]

theorem asNat_trim (a : UInt8) (rest : Bytes) : asNat (trim (a :: rest)) = asNat (a :: rest) := by
  induction rest generalizing a with
  | nil => rfl
  | cons b rest ih =>
    rw [trim]
    split
    · next hzero => rw [ih, hzero.1, asNat_zero_cons]
    · rfl

theorem length_trim_le (a : UInt8) (rest : Bytes) : (trim (a :: rest)).length ≤ (a :: rest).length := by
  induction rest generalizing a with
  | nil => exact le_rfl
  | cons b rest ih =>
    rw [trim]
    split
    · exact le_trans (ih b) (Nat.le_succ _)
    · exact le_rfl

theorem asNat_dropWhile (bytes : Bytes) : asNat (bytes.dropWhile (· = 0)) = asNat bytes := by
  induction bytes with
  | nil => rfl
  | cons b bytes ih =>
    by_cases hb : b = 0
    · rw [List.dropWhile_cons_of_pos (by simpa using hb), ih, hb, asNat_zero_cons]
    · rw [List.dropWhile_cons_of_neg (by simpa using hb)]

/-- Without leading zeros a number below a power of 256 has at most as many bytes. -/
theorem length_dropWhile_le {bytes : Bytes} {k : ℕ} (h : asNat bytes < 256 ^ k) :
    (bytes.dropWhile (· = 0)).length ≤ k := by
  rw [← asNat_dropWhile] at h
  cases hbody : bytes.dropWhile (· = 0) with
  | nil => exact Nat.zero_le _
  | cons b body =>
    have hb : b ≠ 0 := by
      have hhead := List.head_dropWhile_not (p := (· = 0)) (l := bytes) (by rw [hbody]; exact List.cons_ne_nil _ _)
      simp only [hbody, List.head_cons, decide_eq_false_iff_not] at hhead
      exact hhead
    have hpos : 1 ≤ b.toNat := by
      rw [Nat.one_le_iff_ne_zero, ne_eq, ← UInt8.toNat_zero, UInt8.toNat_inj]
      exact hb
    have hvalue := asNat_append [b] body
    rw [hbody] at h
    have hsingle : asNat [b] = b.toNat := by simp [asNat]
    rw [List.singleton_append, hsingle] at hvalue
    by_contra hlong
    rw [List.length_cons] at hlong
    have hpow : 256 ^ k ≤ 256 ^ body.length := Nat.pow_le_pow_right (by decide) (by omega)
    have hle : 256 ^ body.length ≤ b.toNat * 256 ^ body.length := Nat.le_mul_of_pos_left _ hpos
    omega

/-- At most one zero is before the first byte that is none. -/
theorem Minimal.length_le {bytes : Bytes} (h : Minimal bytes) {k : ℕ}
    (hle : (bytes.dropWhile (· = 0)).length ≤ k) : bytes.length ≤ k + 1 := by
  cases bytes with
  | nil => exact Nat.zero_le _
  | cons a rest =>
    by_cases ha : a = 0
    · rw [List.dropWhile_cons_of_pos (by simpa using ha)] at hle
      cases rest with
      | nil => exact Nat.succ_le_succ (Nat.zero_le _)
      | cons b rest =>
        have hb : b ≠ 0 := by
          rintro rfl
          exact h.shortest ha (by simp) (by rw [List.getD_cons_succ, List.getD_cons_zero]; decide)
        rw [List.dropWhile_cons_of_neg (by simpa using hb)] at hle
        exact Nat.succ_le_succ hle
    · rw [List.dropWhile_cons_of_neg (by simpa using ha)] at hle
      exact Nat.le_succ_of_le hle

/-! ## Lengths -/

theorem and_0x80 (b : UInt8) : (b &&& 0x80 = 0 ↔ b < 0x80) ∧ (b &&& 0x80 = 0x80 ↔ ¬ b < 0x80) := by
  have hall : ∀ x < 256, (UInt8.ofNat x &&& 0x80 = 0 ↔ UInt8.ofNat x < 0x80) ∧
      (UInt8.ofNat x &&& 0x80 = 0x80 ↔ ¬ UInt8.ofNat x < 0x80) := by decide +kernel
  have hb := hall b.toNat b.toNat_lt
  rwa [UInt8.ofNat_toNat] at hb

/-- A length below 128 is one byte. -/
theorem readLen_short {len : ℕ} (h : len < 128) (sig : Bytes) :
    readLen (UInt8.ofNat len :: sig) = some (len, sig) := by
  have hnat : (UInt8.ofNat len).toNat = len := by
    rw [UInt8.toNat_ofNat']
    exact Nat.mod_eq_of_lt (by omega)
  have hlt : UInt8.ofNat len < 0x80 := by
    rw [UInt8.lt_iff_toNat_lt, hnat]
    exact h
  have hne : UInt8.ofNat len ≠ 0xFF := by
    intro heq
    rw [heq] at hlt
    exact absurd hlt (by decide)
  rw [readLen, if_neg hne, if_pos ((and_0x80 _).1.mpr hlt), hnat]

theorem le_of_readLenLong {lenleft ret len : ℕ} {sig rest : Bytes}
    (h : readLenLong lenleft ret sig = some (len, rest)) : 128 ≤ len := by
  induction lenleft generalizing ret sig with
  | zero =>
    rw [readLenLong] at h
    split at h
    · cases h
    · next hge =>
      cases h
      exact Nat.not_lt.mp hge
  | succ lenleft ih =>
    rw [readLenLong] at h
    split at h
    · cases h
    · exact ih h

/-- A length below 128 was one byte. -/
theorem eq_of_readLen {sig rest : Bytes} {len : ℕ} (h : readLen sig = some (len, rest)) (hlen : len < 128) :
    sig = UInt8.ofNat len :: rest := by
  cases sig with
  | nil => cases h
  | cons b1 sig =>
    rw [readLen] at h
    split at h
    · cases h
    · split at h
      · cases h
        rw [UInt8.ofNat_toNat]
      · split at h
        · cases h
        · simp only at h
          split at h
          · cases h
          · have hge := le_of_readLenLong h
            omega

/-! ## Integers -/

theorem minimal_integer (a : ZMod n) : Minimal (integer a) := minimal_trim (by decide)

theorem length_integer (a : ZMod n) : 1 ≤ (integer a).length ∧ (integer a).length ≤ 33 := by
  refine ⟨List.length_pos_iff.mpr (minimal_integer a).ne_nil, ?_⟩
  have hle := length_trim_le 0 (Curve.scalarGetB32 a)
  rwa [List.length_cons, Curve.length_scalarGetB32] at hle

section Order

variable [NeZero n] (hn : n ≤ 256 ^ 32)

include hn

theorem asNat_integer (a : ZMod n) : asNat (integer a) = a.val := by
  rw [integer, asNat_trim, asNat_zero_cons]
  exact asNat_ofNat (lt_of_lt_of_le (ZMod.val_lt a) hn)

omit [NeZero n] in
/-- The shortest bytes of the number of a scalar are its integer. -/
theorem eq_integer {bytes : Bytes} (h : Minimal bytes) (hlen : bytes.length ≤ 33) (hlt : asNat bytes < n) :
    bytes = integer (asNat bytes : ZMod n) := by
  have hval : (asNat bytes : ZMod n).val = asNat bytes := ZMod.val_cast_of_lt hlt
  -- both are the number in 33 bytes, without the zeros
  have hsize : (List.replicate (33 - bytes.length) 0 ++ bytes).length = 33 := by
    rw [List.length_append, List.length_replicate]
    omega
  have hpadded := ofNat_asNat_of_length hsize
  rw [asNat_replicate] at hpadded
  have hnumber : asNat (0 :: Curve.scalarGetB32 (asNat bytes : ZMod n)) = asNat bytes := by
    rw [asNat_zero_cons, Curve.scalarGetB32, hval]
    exact asNat_ofNat (lt_of_lt_of_le hlt hn)
  have hsize' : (0 :: Curve.scalarGetB32 (asNat bytes : ZMod n)).length = 33 := by
    rw [List.length_cons, Curve.length_scalarGetB32]
  have hzero := ofNat_asNat_of_length hsize'
  rw [hnumber] at hzero
  rw [integer, ← hzero, hpadded, trim_pad h]

/-- An integer is read back. -/
theorem parseInteger_tagged (a : ZMod n) (rest : Bytes) :
    parseInteger n (tagged a ++ rest) = some (a, rest) := by
  obtain ⟨hpos, hlen⟩ := length_integer a
  obtain ⟨hne, hnonneg, hshortest⟩ := minimal_integer a
  have hnumber := asNat_integer hn a
  have hval : a.val < n := ZMod.val_lt a
  have hbody : ((integer a).dropWhile (· = 0)).length ≤ 32 :=
    length_dropWhile_le (hnumber ▸ lt_of_lt_of_le hval hn)
  have hscalar : Curve.scalarSetB32 n (List.replicate (32 - ((integer a).dropWhile (· = 0)).length) 0 ++
      (integer a).dropWhile (· = 0)) = (a, false) := by
    rw [Curve.scalarSetB32, asNat_replicate, asNat_dropWhile, hnumber, ZMod.natCast_zmod_val,
      decide_eq_false (Nat.not_le.mpr hval)]
  have hhead : (integer a ++ rest).headD 0 = (integer a).headD 0 := by
    obtain ⟨b, l, hl⟩ := List.exists_cons_of_ne_nil hne
    rw [hl]
    rfl
  have hmsb : ¬ (integer a).headD 0 &&& 0x80 = 0x80 := fun h => (and_0x80 _).2.mp h hnonneg
  rw [tagged, List.cons_append, List.cons_append, parseInteger, if_neg (by decide),
    readLen_short (by omega), Option.bind_some]
  simp only [hhead]
  rw [if_neg, if_neg, if_neg, List.take_left' rfl, List.drop_left' rfl, hscalar]
  · simp only [hmsb, Bool.false_eq_true, or_false, gt_iff_lt, Nat.not_lt.mpr hbody, if_false]
  · rintro ⟨h, -⟩
    rw [h] at hnonneg
    exact absurd hnonneg (by decide)
  · rintro ⟨hzero, hlong, hsecond⟩
    rw [List.getD_append _ _ _ _ hlong] at hsecond
    exact hshortest hzero hlong ((and_0x80 _).1.mp hsecond)
  · rw [List.length_append]
    omega

omit [NeZero n] in
/-- An integer that was read and is not zero has one encoding. -/
theorem eq_tagged_of_parseInteger {r : ZMod n} {sig rest : Bytes}
    (h : parseInteger n sig = some (r, rest)) (hr : r ≠ 0) : sig = tagged r ++ rest := by
  cases sig with
  | nil => cases h
  | cons tag sig =>
    rw [parseInteger] at h
    split at h
    · cases h
    · next htag =>
      obtain ⟨⟨rlen, sig'⟩, hread, h⟩ := Option.bind_eq_some_iff.mp h
      simp only at h
      split at h
      · cases h
      · next hbounds =>
        split at h
        · cases h
        · next hpadding =>
          split at h
          · cases h
          · next hpadding' =>
            obtain ⟨hvalue, hrest⟩ := Prod.mk.inj (Option.some.inj h)
            obtain ⟨hpos, hle⟩ := not_or.mp hbounds
            subst hrest
            generalize hcontent : sig'.take rlen = content at hvalue
            have hsig : sig' = content ++ sig'.drop rlen := by rw [← hcontent, List.take_append_drop]
            have hlen : content.length = rlen := by
              rw [← hcontent, List.length_take]
              omega
            have hne : content ≠ [] := List.length_pos_iff.mp (by omega)
            have hhead : sig'.headD 0 = content.headD 0 := by
              obtain ⟨b, l, hl⟩ := List.exists_cons_of_ne_nil hne
              rw [hsig, hl]
              rfl
            have hsecond : 1 < content.length → sig'.getD 1 0 = content.getD 1 0 := fun hlong => by
              rw [hsig, List.getD_append _ _ _ _ hlong]
            rw [hhead] at hvalue hpadding
            split at hvalue
            · exact absurd hvalue.symm hr
            · next hfits =>
              simp only [not_or, gt_iff_lt, Nat.not_lt, Bool.not_eq_true] at hfits
              obtain ⟨hsign, hbody, hoverflow⟩ := hfits
              rw [Curve.scalarSetB32, asNat_replicate, asNat_dropWhile] at hvalue hoverflow
              have hminimal : Minimal content := by
                refine ⟨hne, not_not.mp fun h => hsign ((and_0x80 _).2.mpr h), fun hzero hlong hb => ?_⟩
                exact hpadding ⟨hzero, hlen ▸ hlong, hsecond hlong ▸ (and_0x80 _).1.mpr hb⟩
              have hlt : asNat content < n := Nat.not_le.mp (of_decide_eq_false hoverflow)
              have hinteger := eq_integer hn hminimal (hminimal.length_le hbody) hlt
              rw [show (asNat content : ZMod n) = r from hvalue] at hinteger
              have hshort := (length_integer r).2
              rw [← hinteger] at hshort
              have htag' : tag = 0x02 := not_not.mp htag
              rw [eq_of_readLen hread (by omega), htag', tagged, ← hinteger, hlen, List.cons_append,
                List.cons_append, ← hsig]

/-! ## Signatures -/

omit [NeZero n] hn in
/-- What is written when there is room. -/
theorem sigSerialize_eq (r s : ZMod n) : sigSerialize 72 r s =
    some (0x30 :: UInt8.ofNat (tagged r ++ tagged s).length :: (tagged r ++ tagged s)) := by
  have hr := (length_integer r).2
  have hs := (length_integer s).2
  have hlen : (tagged r ++ tagged s).length = 4 + (integer s).length + (integer r).length := by
    simp only [tagged, List.length_append, List.length_cons]
    omega
  rw [sigSerialize, if_neg (by omega), hlen]

omit [NeZero n] hn in
theorem length_tagged (r s : ZMod n) : (tagged r ++ tagged s).length ≤ 70 := by
  have hr := (length_integer r).2
  have hs := (length_integer s).2
  simp only [tagged, List.length_append, List.length_cons]
  omega

/-- Every pair of scalars is written into 72 bytes and read back, and a pair without zeros that was read
was encoded in the one way it is written. -/
theorem der_canonical :
    (∀ r s : ZMod n, ∃ der, sigSerialize 72 r s = some der ∧ der.length ≤ 72 ∧ sigParse n der = some (r, s)) ∧
      ∀ (bytes : Bytes) (r s : ZMod n), r ≠ 0 → s ≠ 0 → sigParse n bytes = some (r, s) →
        sigSerialize 72 r s = some bytes := by
  refine ⟨fun r s => ⟨_, sigSerialize_eq r s, ?_, ?_⟩, fun bytes r s hr hs h => ?_⟩
  · have hlen := length_tagged r s
    rw [List.length_cons, List.length_cons]
    omega
  · have hlen := length_tagged r s
    have hlast : parseInteger n (tagged s) = some (s, []) := by
      simpa using parseInteger_tagged hn s []
    rw [sigParse, if_neg (by decide), readLen_short (by omega), Option.bind_some]
    simp only
    rw [if_neg (by simp), parseInteger_tagged hn r, Option.bind_some]
    simp only
    rw [hlast, Option.bind_some]
    exact if_neg (by simp)
  · cases bytes with
    | nil => cases h
    | cons tag sig =>
      rw [sigParse] at h
      split at h
      · cases h
      · next htag =>
        obtain ⟨⟨rlen, sig'⟩, hread, h⟩ := Option.bind_eq_some_iff.mp h
        simp only at h
        split at h
        · cases h
        · next hbounds =>
          obtain ⟨⟨rr, sig₁⟩, hfirst, h⟩ := Option.bind_eq_some_iff.mp h
          obtain ⟨⟨rs, sig₂⟩, hsecond, h⟩ := Option.bind_eq_some_iff.mp h
          simp only at h
          split at h
          · cases h
          · next hend =>
            cases h
            have hsig₁ : sig₁ = tagged s ++ sig₂ := eq_tagged_of_parseInteger hn hsecond hs
            rw [not_not.mp hend, List.append_nil] at hsig₁
            have hsig := eq_tagged_of_parseInteger hn hfirst hr
            rw [hsig₁] at hsig
            have hlen : rlen = (tagged r ++ tagged s).length := by
              rw [← hsig]
              exact not_not.mp (not_or.mp hbounds).2
            have hshort := length_tagged r s
            have htag' : tag = 0x30 := not_not.mp htag
            rw [sigSerialize_eq, eq_of_readLen hread (by omega), hsig, hlen, htag']

end Order

/-- The order of the curve. -/
abbrev secpOrder : ℕ := 0xFFFFFFFFFFFFFFFFFFFFFFFFFFFFFFFEBAAEDCE6AF48A03BBFD25E8CD0364141

theorem der_canonical_secpOrder :
    (∀ r s : ZMod secpOrder, ∃ der, sigSerialize 72 r s = some der ∧ der.length ≤ 72 ∧
        sigParse secpOrder der = some (r, s)) ∧
      ∀ (bytes : Bytes) (r s : ZMod secpOrder), r ≠ 0 → s ≠ 0 → sigParse secpOrder bytes = some (r, s) →
        sigSerialize 72 r s = some bytes :=
  der_canonical (by decide)

end Der

end GrinDotnet
