import GrinDotnet.Secp.Pedersen

/-!
# Commitments as pairs

A native library over pairs of a value and a blinding factor modulo a number: a commitment is the
pair itself, a signature shows its key, and a range proof is checked by looking at the value. It
satisfies all laws, so the statements that assume them are about something, and it evaluates.
-/

namespace GrinDotnet

open BigEndian

namespace Pairs

/-- The order of the pairs, a number of 127 bits. -/
def order : ℕ := 2 ^ 127 - 1

/-- The bytes of a pair. -/
def encode (v r : ℕ) : Bytes := ofNat 16 v ++ ofNat 16 r

/-- The commitment of a pair. -/
def save (v r : ℕ) : Fixed 33 := ⟨0x08 :: encode v r, by simp [encode]⟩

/-- The value of a commitment. -/
def loadValue (c : Fixed 33) : ℕ := asNat (c.1.tail.take 16)

/-- The blinding factor of a commitment. -/
def loadBlind (c : Fixed 33) : ℕ := asNat (c.1.tail.drop 16)

/-- The value and the blinding factor of a public key. -/
def keyPair (k : Fixed 64) : ℕ × ℕ := (asNat (k.1.take 16), asNat ((k.1.drop 16).take 16))

/-- The public key of a pair's bytes. -/
def toKey (bytes : Bytes) (h : bytes.length = 32) : Fixed 64 :=
  ⟨bytes ++ List.replicate 32 0, by simp [h]⟩

/-- The sum of a list modulo the order. -/
def total (f : Fixed 33 → ℕ) (cs : List (Fixed 33)) : ℕ := (cs.map f).sum % order

/-- The difference modulo the order. -/
def sub (a b : ℕ) : ℕ := (a + (order - b % order)) % order

/-- `secp256k1_pedersen_commit_sum` on pairs. -/
def commitSum (pos neg : List (Fixed 33)) : Option (Fixed 33) :=
  let v := sub (total loadValue pos) (total loadValue neg)
  let r := sub (total loadBlind pos) (total loadBlind neg)
  if v = 0 ∧ r = 0 then none else some (save v r)

/-- The library on pairs. -/
def native : Native where
  order := order
  one_lt_order := by decide
  order_le := by decide
  pedersenCommit blind value := some (save value.toNat (asNat blind.1 % order))
  switchCommit blind := some (save 0 (asNat blind.1 % order))
  pedersenCommitSum := commitSum
  rangeproofSign _ _ _ _ _ _ := some ⟨[1], by decide⟩
  rangeproofVerify commit _ _ :=
    if loadValue commit % order < 2 ^ 64 then some (0, 0xFFFFFFFFFFFFFFFF) else none
  ecPubkeyCreate blind := some (toKey (encode 0 (asNat blind.1 % order)) (by simp [encode]))
  ecPubkeySerialize key := some (0x02 :: key.1.take 32)
  ecPubkeyParse bytes :=
    if h : bytes.length = 33 ∧ (bytes.headD 0 = 0x02 ∨ bytes.headD 0 = 0x03) ∧
        bytes.tail.any (· ≠ 0) then
      some (toKey bytes.tail (by simp [h.1]))
    else none
  ecdsaSign msg blind := some ⟨msg.1 ++ blind.1, by simp [msg.2, blind.2]⟩
  ecdsaVerify sig msg key :=
    sig.1.take 32 == msg.1 && decide ((keyPair key).1 % order = 0) &&
      decide ((keyPair key).2 % order = asNat (sig.1.drop 32) % order)
  ecdsaSignatureSerializeDer sig := some sig.1
  ecdsaSignatureParseDer bytes := if h : bytes.length = 64 then some ⟨bytes, h⟩ else none

/-! ## The laws -/

/-- The group of pairs. -/
abbrev Point := ZMod order × ZMod order

/-- The point of a commitment. -/
def load (c : Fixed 33) : Point := (loadValue c, loadBlind c)

/-- The canonical numbers of a point. -/
def savePoint (p : Point) : Fixed 33 := save p.1.val p.2.val

/-- The point of a public key. -/
def keyPoint (k : Fixed 64) : Point := ((keyPair k).1, (keyPair k).2)

instance : NeZero order := ⟨by decide⟩

theorem order_lt : order < 256 ^ 16 := by decide

theorem two_pow_le_order : 2 ^ 100 ≤ order := by decide

theorem loadValue_save {v : ℕ} (r : ℕ) (hv : v < 256 ^ 16) : loadValue (save v r) = v := by
  have h : (save v r).1.tail.take 16 = ofNat 16 v := by simp [save, encode]
  rw [loadValue, h, asNat_ofNat hv]

theorem loadBlind_save (v : ℕ) {r : ℕ} (hr : r < 256 ^ 16) : loadBlind (save v r) = r := by
  have h : (save v r).1.tail.drop 16 = ofNat 16 r := by simp [save, encode]
  rw [loadBlind, h, asNat_ofNat hr]

theorem load_save {v r : ℕ} (hv : v < 256 ^ 16) (hr : r < 256 ^ 16) :
    load (save v r) = ((v : ZMod order), (r : ZMod order)) := by
  rw [load, loadValue_save r hv, loadBlind_save v hr]

theorem val_lt_pow (a : ZMod order) : a.val < 256 ^ 16 := lt_trans (ZMod.val_lt a) order_lt

theorem load_savePoint (p : Point) : load (savePoint p) = p := by
  rw [savePoint, load_save (val_lt_pow _) (val_lt_pow _)]
  simp

theorem cast_total (f : Fixed 33 → ℕ) (cs : List (Fixed 33)) :
    ((total f cs : ℕ) : ZMod order) = (cs.map fun c => (f c : ZMod order)).sum := by
  rw [total, ZMod.natCast_mod]
  induction cs with
  | nil => simp
  | cons c cs ih => simp [ih]

theorem cast_sub (a b : ℕ) : ((sub a b : ℕ) : ZMod order) = a - b := by
  have hle : b % order ≤ order := (Nat.mod_lt _ (by decide)).le
  rw [sub, ZMod.natCast_mod, Nat.cast_add, Nat.cast_sub hle, ZMod.natCast_mod]
  simp [sub_eq_add_neg]

theorem sub_lt (a b : ℕ) : sub a b < order := Nat.mod_lt _ (by decide)

theorem cast_eq_zero_iff {a : ℕ} (h : a < order) : (a : ZMod order) = 0 ↔ a = 0 := by
  rw [ZMod.natCast_eq_zero_iff]
  exact ⟨fun hd => Nat.eq_zero_of_dvd_of_lt hd h, fun ha => ha ▸ dvd_zero _⟩

theorem sum_load (cs : List (Fixed 33)) :
    (cs.map load).sum = (((total loadValue cs : ℕ) : ZMod order),
      ((total loadBlind cs : ℕ) : ZMod order)) := by
  rw [cast_total, cast_total]
  induction cs with
  | nil => rfl
  | cons c cs ih =>
    rw [List.map_cons, List.sum_cons, ih]
    rfl

/-- The value of a point is the sum of its multiples of the two generators. -/
theorem smul_add_smul (v r : ℕ) :
    v • ((1, 0) : Point) + r • ((0, 1) : Point) = ((v : ZMod order), (r : ZMod order)) := by
  simp

theorem save_natCast {v r : ℕ} (hv : v < order) :
    save v (r % order) = savePoint ((v : ZMod order), (r : ZMod order)) := by
  simp [savePoint, ZMod.val_natCast, Nat.mod_eq_of_lt hv]

/-- The points, generators and sums of pairs. -/
def pedersen : Pedersen native Point where
  G := (0, 1)
  H := (1, 0)
  load := load
  save := savePoint
  keyPoint := keyPoint
  order_nsmul p := by
    ext
    · simp [native]
    · simp [native]
  load_save p _ := load_savePoint p
  commit_ne_zero v r hr hne := by
    rw [smul_add_smul]
    intro h
    obtain ⟨hv0, hr0⟩ := Prod.mk.inj h
    have hv : v.toNat < order := lt_trans v.toNat_lt (by decide)
    rcases hne with hne | hne
    · exact hne (UInt64.toNat_inj.mp ((cast_eq_zero_iff hv).mp hv0))
    · exact hne ((cast_eq_zero_iff hr).mp hr0)
  pedersenCommit_eq blind v _ _ := by
    rw [smul_add_smul, ← save_natCast (lt_trans v.toNat_lt (by decide))]
    rfl
  pedersenCommitSum_eq pos neg hne := by
    rw [sum_load, sum_load] at hne ⊢
    rw [Prod.mk_sub_mk, ← cast_sub, ← cast_sub] at hne ⊢
    show commitSum pos neg = _
    unfold commitSum
    rw [if_neg]
    · rw [← save_natCast (sub_lt _ _), Nat.mod_eq_of_lt (sub_lt _ _)]
    · rintro ⟨hv, hr⟩
      rw [hv, hr] at hne
      exact hne (by simp)
  pedersenCommitSum_eq_none pos neg hzero := by
    rw [sum_load, sum_load, Prod.mk_sub_mk, ← cast_sub, ← cast_sub] at hzero
    obtain ⟨hv, hr⟩ := Prod.mk.inj hzero
    show commitSum pos neg = none
    unfold commitSum
    rw [if_pos ⟨(cast_eq_zero_iff (sub_lt _ _)).mp hv, (cast_eq_zero_iff (sub_lt _ _)).mp hr⟩]

theorem keyPair_toKey {bytes : Bytes} (h : bytes.length = 32) :
    keyPair (toKey bytes h) = (asNat (bytes.take 16), asNat (bytes.drop 16)) := by
  have h16 : 16 ≤ bytes.length := by omega
  have hdrop : (bytes.drop 16).length = 16 := by simp [h]
  rw [keyPair, toKey, List.take_append_of_le_length h16, List.drop_append_of_le_length h16,
    List.take_append_of_le_length hdrop.ge, List.take_of_length_le hdrop.le]

/-- The identity is the only point whose encoding is all zeroes. -/
theorem any_tail_savePoint {p : Point} (hp : p ≠ 0) :
    (savePoint p).1.tail.any (· ≠ 0) = true := by
  by_contra hany
  have hall : ∀ b ∈ (savePoint p).1.tail, b = 0 := by
    intro b hb
    by_contra hb0
    exact hany (List.any_eq_true.mpr ⟨b, hb, by simpa using hb0⟩)
  have hload := load_savePoint p
  have hv : loadValue (savePoint p) = 0 :=
    asNat_eq_zero fun b hb => hall b (List.mem_of_mem_take hb)
  have hr : loadBlind (savePoint p) = 0 :=
    asNat_eq_zero fun b hb => hall b (List.mem_of_mem_drop hb)
  rw [load, hv, hr] at hload
  exact hp (by rw [← hload]; simp)

theorem parse_eq_some_iff {bytes : Bytes} {k : Fixed 64} :
    native.ecPubkeyParse bytes = some k ↔
      ∃ h : bytes.length = 33, (bytes.headD 0 = 0x02 ∨ bytes.headD 0 = 0x03) ∧
        bytes.tail.any (· ≠ 0) = true ∧ toKey bytes.tail (by simp [h]) = k := by
  simp only [native]
  split
  · next h => simp only [Option.some.injEq, h.1, h.2.1, h.2.2, exists_true_left, true_and]
  · next h =>
    simp only [reduceCtorEq, false_iff]
    rintro ⟨h1, h2, h3, -⟩
    exact h ⟨h1, h2, h3⟩

/-- A candidate key of a commitment is the commitment's point. -/
theorem keyPoint_of_parse {c : Fixed 33} {tag : UInt8} {k : Fixed 64}
    (h : native.ecPubkeyParse (tag :: c.1.tail) = some k) : keyPoint k = load c := by
  obtain ⟨-, -, -, rfl⟩ := parse_eq_some_iff.mp h
  rw [keyPoint, keyPair_toKey]
  rfl

theorem rangeproofVerify_isSome_iff {c : Fixed 33} {proof : Bytes} {plen : ℕ} :
    (native.rangeproofVerify c proof plen).isSome = true ↔ loadValue c % order < 2 ^ 64 := by
  simp only [native]
  split <;> simp_all

theorem loadValue_commit {v : UInt64} (r : ℕ) :
    loadValue (savePoint (v.toNat • ((1, 0) : Point) + r • ((0, 1) : Point))) = v.toNat := by
  have hv : v.toNat < order := lt_trans v.toNat_lt (by decide)
  rw [smul_add_smul, ← save_natCast hv, loadValue_save _ (lt_trans hv order_lt)]

/-- What the library on pairs makes it accepts again. -/
def honest : Honest native Point where
  toPedersen := pedersen
  rangeproof_complete v blind msg _ _ := by
    refine ⟨⟨[1], by decide⟩, by simp only [native], rangeproofVerify_isSome_iff.mpr ?_⟩
    have hlt : v.toNat < 2 ^ 64 := v.toNat_lt
    have hload := loadValue_commit (v := v) (asNat blind.1)
    rw [pedersen, hload]
    exact lt_of_le_of_lt (Nat.mod_le _ _) hlt
  pubkeyParse_complete p hp := by
    have hparse : ∀ tag : UInt8, tag = 0x02 ∨ tag = 0x03 →
        ∃ k, native.ecPubkeyParse (tag :: (savePoint p).1.tail) = some k := by
      intro tag htag
      have hlen : (tag :: (savePoint p).1.tail).length = 33 := by simp [(savePoint p).2]
      exact ⟨_, parse_eq_some_iff.mpr ⟨hlen, htag, any_tail_savePoint hp, rfl⟩⟩
    obtain ⟨k₂, h₂⟩ := hparse 0x02 (.inl rfl)
    obtain ⟨k₃, h₃⟩ := hparse 0x03 (.inr rfl)
    exact ⟨k₂, k₃, h₂, h₃, .inl ((keyPoint_of_parse h₂).trans (load_savePoint p))⟩
  pubkeyParse_valid bytes k h := by
    obtain ⟨hlen, -, hany, rfl⟩ := parse_eq_some_iff.mp h
    obtain ⟨b, hb, hb0⟩ := List.any_eq_true.mp hany
    exact ⟨b, by simp [toKey, hb], by simpa using hb0⟩
  ecdsaSign_complete msg blind _ := by
    refine ⟨⟨msg.1 ++ blind.1, by simp [msg.2, blind.2]⟩, rfl, fun k hk => ?_⟩
    have hpoint : keyPoint k = (((0 : ℕ) : ZMod order), ((asNat blind.1 : ℕ) : ZMod order)) := by
      refine hk.trans ?_
      rw [← smul_add_smul, zero_nsmul, zero_add]
      rfl
    obtain ⟨hv, hr⟩ := Prod.mk.inj hpoint
    rw [ZMod.natCast_eq_natCast_iff'] at hv hr
    have htake : (msg.1 ++ blind.1).take 32 = msg.1 := List.take_left' msg.2
    have hdrop : (msg.1 ++ blind.1).drop 32 = blind.1 := List.drop_left' msg.2
    simp [native, htake, hdrop, hr, show (keyPair k).1 % order = 0 from hv]
  der_complete msg blind sig _ := by
    refine ⟨sig.1, rfl, by simp [sig.2], ?_⟩
    show (if h : sig.1.length = 64 then some ⟨sig.1, h⟩ else none) = some sig
    rw [dif_pos sig.2]

/-- What the library on pairs accepts opens as it should. -/
def sound : Sound native Point where
  toPedersen := pedersen
  opening := AddMonoidHom.id Point
  opening_H := rfl
  opening_G := rfl
  two_pow_le_order := two_pow_le_order
  rangeproof_sound c proof plen h := by
    have hval : ((AddMonoidHom.id Point) (load c)).1.val = loadValue c % order :=
      ZMod.val_natCast order (loadValue c)
    exact lt_of_eq_of_lt hval (rangeproofVerify_isSome_iff.mp h)
  pubkeyParse_sound c tag k _ h := .inl (keyPoint_of_parse h)
  ecdsaVerify_sound sig msg k h := by
    simp only [native, Bool.and_eq_true, decide_eq_true_eq] at h
    exact (ZMod.natCast_eq_zero_iff _ _).mpr (Nat.dvd_of_mod_eq_zero h.1.2)

/-- The library on pairs does both. -/
def faithful : Faithful native Point where
  toHonest := honest
  opening := sound.opening
  opening_H := sound.opening_H
  opening_G := sound.opening_G
  two_pow_le_order := sound.two_pow_le_order
  rangeproof_sound := sound.rangeproof_sound
  pubkeyParse_sound := sound.pubkeyParse_sound
  ecdsaVerify_sound := sound.ecdsaVerify_sound

end Pairs

end GrinDotnet
