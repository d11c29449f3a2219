import Mathlib.Data.List.Sort
import GrinDotnet.Common.Linq
import GrinDotnet.Core.Consensus
import GrinDotnet.Keychain.ExtendedKey
import GrinDotnet.Lib.Dictionary
import GrinDotnet.Lib.Word64

/-!
# The wallet's records

`OutputData`, `WalletData` and the fee formula of `Types`. A wallet is a dictionary of records that
is enumerated in insertion order; `WellKeyed` says that every record is filed under its own key id.
-/

namespace GrinDotnet

open BigEndian Outcome

/-- `OutputStatus`. -/
inductive OutputStatus
  | unconfirmed
  | unspent
  | locked
  | spent
deriving DecidableEq, Repr

/-- `OutputData`: an output the wallet tracks. -/
structure OutputData where
  rootKeyId : String
  keyId : String
  nChild : UInt32
  value : UInt64
  status : OutputStatus
  height : UInt64
  lockHeight : UInt64
  isCoinbase : Bool
deriving DecidableEq

namespace OutputData

/-- `OutputData.Lock`. -/
def lock (self : OutputData) : OutputData := { self with status := .locked }

@[simp] theorem keyId_lock (o : OutputData) : o.lock.keyId = o.keyId := rfl

@[simp] theorem value_lock (o : OutputData) : o.lock.value = o.value := rfl

@[simp] theorem nChild_lock (o : OutputData) : o.lock.nChild = o.nChild := rfl

@[simp] theorem rootKeyId_lock (o : OutputData) : o.lock.rootKeyId = o.rootKeyId := rfl

@[simp] theorem status_lock (o : OutputData) : o.lock.status = .locked := rfl

@[simp] theorem lock_lock (o : OutputData) : o.lock.lock = o.lock := rfl

/-- `OutputData.num_confirmations`, with the wrapping subtraction of the source. -/
def numConfirmations (self : OutputData) (currentHeight : UInt64) : UInt64 :=
  if self.status = .unconfirmed then 0
  else if self.status = .spent ∧ self.height = 0 then 0
  else 1 + (currentHeight - self.height)

/-- `OutputData.eligible_to_spend`. -/
def eligibleToSpend (self : OutputData) (currentHeight minimumConfirmations : UInt64) : Bool :=
  if self.status = .spent ∨ self.status = .locked then false
  else if self.status = .unconfirmed ∧ self.isCoinbase then false
  else if currentHeight < self.lockHeight then false
  -- the height counts as well as the confirmations
  else if self.status = .unspent ∧
      minimumConfirmations ≤ self.height + self.numConfirmations currentHeight then true
  else if self.status = .unconfirmed ∧ minimumConfirmations = 0 then true
  else false

/-- An eligible output is neither spent nor locked. -/
theorem status_of_eligible {o : OutputData} {currentHeight minimumConfirmations : UInt64}
    (h : o.eligibleToSpend currentHeight minimumConfirmations = true) :
    o.status ≠ .spent ∧ o.status ≠ .locked := by
  unfold eligibleToSpend at h
  split at h
  · cases h
  · next hne => exact ⟨fun hs => hne (.inl hs), fun hl => hne (.inr hl)⟩

end OutputData

/-- `WalletData`. -/
structure WalletData where
  outputs : Dictionary String OutputData
deriving DecidableEq

namespace WalletData

/-- The wallet without outputs. -/
def new : WalletData := ⟨Dictionary.empty⟩

/-- `WalletData.Add_output`: `Dictionary.Add` refuses a key that is there. -/
def addOutput (self : WalletData) (outd : OutputData) : Except Exn WalletData :=
  match self.outputs.add outd.keyId outd with
  | some outputs => .ok ⟨outputs⟩
  | none => .error .argument

/-- `WalletData.Delete_output`. -/
def deleteOutput (self : WalletData) (id : Identifier) : WalletData :=
  ⟨self.outputs.remove id.hexValue⟩

/-- `WalletData.Lock_output`: the record under the output's key id is locked if it has the output's
value, and left alone without a complaint if it has another one. -/
def lockOutput (self : WalletData) (outd : OutputData) : Except Exn WalletData :=
  match self.outputs.lookup outd.keyId with
  | none => .error .keyNotFound
  | some outToLock =>
    if outToLock.value = outd.value then .ok ⟨self.outputs.modify outd.keyId OutputData.lock⟩
    else .ok self

/-- `WalletData.Get_output`. -/
def getOutput (self : WalletData) (keyId : Identifier) : Except Exn OutputData :=
  match self.outputs.lookup keyId.hexValue with
  | some outd => .ok outd
  | none => .error .keyNotFound

/-- The loop of `Next_child`: the largest index of a record under the root key. -/
def lastChild (self : WalletData) (rootKeyId : Identifier) : UInt32 :=
  self.outputs.values.foldl
    (fun maxN o => if maxN < o.nChild ∧ o.rootKeyId = rootKeyId.hexValue then o.nChild else maxN) 0

/-- `WalletData.Next_child`. -/
def nextChild (self : WalletData) (rootKeyId : Identifier) : UInt32 := self.lastChild rootKeyId + 1

/-- The loop of `Select_from`: an output is taken before it is checked whether those before it were
enough. -/
def takeUntil (amount : UInt64) : UInt64 → List OutputData → List OutputData
  | _, [] => []
  | selectedAmount, o :: rest =>
    if selectedAmount < amount then o :: takeUntil amount (selectedAmount + o.value) rest else [o]

/-- `WalletData.Select_from`. -/
def selectFrom (amount : UInt64) (selectAll : Bool) (outputs : List OutputData) :
    Except Exn (List OutputData) := do
  let total ← aggregate (· + ·) (outputs.map (·.value))
  if amount ≤ total then return if selectAll then outputs else takeUntil amount 0 outputs
  else return []

/-- `Algo.Tuples`: consecutive groups, the last one possibly shorter. -/
def tuples {α : Type} (groupCount : ℕ) : ℕ → List α → List (List α)
  | 0, _ => []
  | _ + 1, [] => []
  | fuel + 1, a :: l =>
    (a :: l).take groupCount :: tuples groupCount fuel ((a :: l).drop groupCount)

/-- The loop of `Select` over the windows: the first one that covers the amount. -/
def selectWindow (amount : UInt64) (selectAll : Bool) :
    List (List OutputData) → Except Exn (Option (List OutputData))
  | [] => .ok none
  | window :: windows => do
    let outputs2 ← selectFrom amount selectAll window
    if outputs2 ≠ [] then return some outputs2 else selectWindow amount selectAll windows

/-- The outputs `Select` looks at, ordered by key id. -/
def eligible (env : Env) (self : WalletData) (rootKeyId : Identifier)
    (currentHeight minimumConfirmations : UInt64) : List OutputData :=
  (self.outputs.values.filter fun o =>
    decide (o.rootKeyId = rootKeyId.hexValue)
      && o.eligibleToSpend currentHeight minimumConfirmations).insertionSort
    fun a b => env.stringLe a.keyId b.keyId = true

/-- The set `Select` settles on among the eligible outputs, if there is one: all of them together,
or the windows one after the other when there are too many. -/
def selectEligible (amount : UInt64) (maxOutputs : UInt32) (defaultStrategy : Bool)
    (eligible : List OutputData) : Except Exn (Option (List OutputData)) :=
  if maxOutputs.toNat < eligible.length then
    if maxOutputs = 0 then .error .argument
    else selectWindow amount defaultStrategy (tuples maxOutputs.toNat eligible.length eligible)
  else selectWindow amount defaultStrategy [eligible]

/-- `WalletData.Select`. When nothing covers the amount it answers as many outputs as it may; the
cast makes that none from `2 ^ 31` on. -/
def select (env : Env) (self : WalletData) (rootKeyId : Identifier)
    (amount currentHeight minimumConfirmations : UInt64) (maxOutputs : UInt32)
    (defaultStrategy : Bool) : Except Exn (List OutputData) := do
  let eligible := self.eligible env rootKeyId currentHeight minimumConfirmations
  match ← selectEligible amount maxOutputs defaultStrategy eligible with
  | some outputs2 => return outputs2
  | none => return eligible.reverse.take maxOutputs.toInt32.toNatClampNeg

/-- The loop of the closure that locks the selected coins. -/
def lockCoins (self : WalletData) (coins : List OutputData) : Except Exn WalletData :=
  coins.foldlM lockOutput self

end WalletData

/-- `Types.DefaultBaseFee`. -/
def defaultBaseFee : UInt64 := Consensus.milliGrin

/-- `Types.tx_fee`. -/
def txFee (inputLen outputLen : UInt32) (baseFee : Option UInt64) : UInt64 :=
  let useBaseFee := baseFee.getD defaultBaseFee
  let txWeight : Int32 := -1 * inputLen.toInt32 + 4 * outputLen.toInt32 + 1
  let txWeight := if txWeight < 1 then 1 else txWeight
  txWeight.toInt64.toUInt64 * useBaseFee

/-! ## The fee -/

namespace FeeLemmas

/-- The weight of a transaction of `n` inputs and two outputs does not overflow. -/
theorem toInt_weight {n : ℕ} (h : n ≤ 300000) :
    (-1 * (UInt32.ofNat n).toInt32 + 4 * (2 : UInt32).toInt32 + 1 : Int32).toInt = 9 - n := by
  have hcast : (UInt32.ofNat n).toInt32 = Int32.ofNat n := Int32.toBitVec_inj.mp (by simp)
  have hn : (UInt32.ofNat n).toInt32.toInt = n := by
    rw [hcast, Int32.toInt_ofNat_of_lt (by omega)]
  have hminus : (-1 : Int32).toInt = -1 := by decide
  have height : (4 * (2 : UInt32).toInt32 : Int32).toInt = 8 := by decide
  have hone : (1 : Int32).toInt = 1 := by decide
  have hneg : (-1 * (n : ℤ)).bmod (2 ^ 32) = -1 * n := Int.bmod_eq_of_le (by omega) (by omega)
  have hadd : (-1 * (n : ℤ) + 8).bmod (2 ^ 32) = -1 * n + 8 :=
    Int.bmod_eq_of_le (by omega) (by omega)
  have hlast : (-1 * (n : ℤ) + 8 + 1).bmod (2 ^ 32) = -1 * n + 8 + 1 :=
    Int.bmod_eq_of_le (by omega) (by omega)
  rw [Int32.toInt_add, Int32.toInt_add, Int32.toInt_mul, hn, hminus, height, hone, hneg, hadd, hlast]
  omega

/-- The fee of `n` inputs and two outputs: the weight is at least one. -/
theorem toNat_txFee {n : ℕ} (h : n ≤ 300000) :
    (txFee (UInt32.ofNat n) 2 none).toNat = max 1 (9 - n) * 1000000 := by
  have hbase : defaultBaseFee.toNat = 1000000 := by decide
  have hone : (1 : Int32).toInt = 1 := by decide
  have hweight := toInt_weight h
  generalize hw : (-1 * (UInt32.ofNat n).toInt32 + 4 * (2 : UInt32).toInt32 + 1 : Int32) = w
    at hweight
  have hlt : w < 1 ↔ w.toInt < 1 := by rw [Int32.lt_iff_toInt_lt, hone]
  have hmax : (if w < 1 then (1 : Int32) else w).toInt = max 1 (9 - (n : ℤ)) := by
    split
    · next hsmall =>
      have := hlt.mp hsmall
      omega
    · next hlarge =>
      have : ¬ w.toInt < 1 := fun h => hlarge (hlt.mpr h)
      omega
  have hword := Word64.toNat_toUInt64 (if w < 1 then (1 : Int32) else w).toInt64
  have hnonneg : (0 : ℤ) ≤ max 1 (9 - (n : ℤ)) := by omega
  rw [Int32.toInt_toInt64, hmax, if_pos hnonneg] at hword
  have hfee : txFee (UInt32.ofNat n) 2 none
      = (if w < 1 then (1 : Int32) else w).toInt64.toUInt64 * defaultBaseFee := by
    rw [← hw]
    rfl
  rw [hfee, UInt64.toNat_mul, hbase]
  omega

end FeeLemmas

/-! ## Lookups -/

namespace WalletLemmas

open WalletData

theorem addOutput_eq_ok_iff {d d' : WalletData} {o : OutputData} :
    d.addOutput o = .ok d' ↔ d.outputs.add o.keyId o = some d'.outputs := by
  unfold addOutput
  cases h : d.outputs.add o.keyId o with
  | none => simp
  | some outputs =>
    simp only [Except.ok.injEq, Option.some.injEq]
    exact ⟨fun he => he ▸ rfl, fun he => by cases d'; exact congrArg WalletData.mk he⟩

theorem lookup_addOutput {d d' : WalletData} {o : OutputData} (h : d.addOutput o = .ok d')
    (k : String) :
    d'.outputs.lookup k = if k = o.keyId then some o else d.outputs.lookup k :=
  Dictionary.lookup_add (addOutput_eq_ok_iff.mp h) k

theorem lookup_lockOutput {d d' : WalletData} {o : OutputData} (h : d.lockOutput o = .ok d')
    (k : String) :
    d'.outputs.lookup k = (d.outputs.lookup k).map fun r =>
      if k = o.keyId ∧ r.value = o.value then r.lock else r := by
  unfold lockOutput at h
  cases hl : d.outputs.lookup o.keyId with
  | none =>
    rw [hl] at h
    cases h
  | some r =>
    rw [hl] at h
    simp only at h
    split at h
    · next hv =>
      cases h
      rw [Dictionary.lookup_modify]
      by_cases hk : k = o.keyId
      · subst hk
        simp [hl, hv]
      · simp [hk]
    · next hv =>
      cases h
      by_cases hk : k = o.keyId
      · subst hk
        simp [hl, hv]
      · simp [hk]

/-- The loop of `Next_child` ends at no less than it began and than it passed. -/
theorem le_foldl_last (root : String) (l : List OutputData) (maxN : UInt32) :
    maxN ≤ l.foldl (fun m o => if m < o.nChild ∧ o.rootKeyId = root then o.nChild else m) maxN ∧
      ∀ o ∈ l, o.rootKeyId = root → o.nChild ≤
        l.foldl (fun m o => if m < o.nChild ∧ o.rootKeyId = root then o.nChild else m) maxN := by
  induction l generalizing maxN with
  | nil => simp
  | cons o l ih =>
    rw [List.foldl_cons]
    obtain ⟨hmax, hall⟩ := ih (if maxN < o.nChild ∧ o.rootKeyId = root then o.nChild else maxN)
    have hstep : maxN ≤ (if maxN < o.nChild ∧ o.rootKeyId = root then o.nChild else maxN) ∧
        (o.rootKeyId = root →
          o.nChild ≤ if maxN < o.nChild ∧ o.rootKeyId = root then o.nChild else maxN) := by
      split
      · next h => exact ⟨UInt32.le_of_lt h.1, fun _ => UInt32.le_refl _⟩
      · next h => exact ⟨UInt32.le_refl _, fun hroot => UInt32.not_lt.mp fun hlt => h ⟨hlt, hroot⟩⟩
    refine ⟨UInt32.le_trans hstep.1 hmax, fun r hr hroot => ?_⟩
    rcases List.mem_cons.mp hr with rfl | hr
    · exact UInt32.le_trans (hstep.2 hroot) hmax
    · exact hall r hr hroot

theorem foldl_last_le {root : String} {l : List OutputData} {maxN b : UInt32} (hmax : maxN ≤ b)
    (h : ∀ o ∈ l, o.nChild ≤ b) :
    l.foldl (fun m o => if m < o.nChild ∧ o.rootKeyId = root then o.nChild else m) maxN ≤ b := by
  induction l generalizing maxN with
  | nil => exact hmax
  | cons o l ih =>
    refine ih ?_ fun r hr => h r (List.mem_cons_of_mem _ hr)
    show (if maxN < o.nChild ∧ o.rootKeyId = root then o.nChild else maxN) ≤ b
    split
    · exact h o List.mem_cons_self
    · exact hmax

/-- No record under the root key has a larger index than the last child. -/
theorem le_lastChild {d : WalletData} {rootKeyId : Identifier} {k : String} {o : OutputData}
    (ho : d.outputs.lookup k = some o) (hroot : o.rootKeyId = rootKeyId.hexValue) :
    o.nChild ≤ d.lastChild rootKeyId :=
  (le_foldl_last rootKeyId.hexValue d.outputs.values 0).2 o (Dictionary.mem_values_iff.mpr ⟨k, ho⟩) hroot

theorem lastChild_le {d : WalletData} {rootKeyId : Identifier} {b : UInt32}
    (h : ∀ k o, d.outputs.lookup k = some o → o.nChild ≤ b) : d.lastChild rootKeyId ≤ b := by
  refine foldl_last_le (UInt32.zero_le) fun o ho => ?_
  obtain ⟨k, hk⟩ := Dictionary.mem_values_iff.mp ho
  exact h k o hk

/-- Locking coins locks the records with the key id and the value of one of them, and no others. -/
theorem lookup_lockCoins {d d' : WalletData} {coins : List OutputData}
    (h : d.lockCoins coins = .ok d') (k : String) :
    d'.outputs.lookup k = (d.outputs.lookup k).map fun r =>
      if ∃ c ∈ coins, c.keyId = k ∧ c.value = r.value then r.lock else r := by
  induction coins generalizing d with
  | nil =>
    obtain rfl := Except.ok.inj h
    simp
  | cons c coins ih =>
    obtain ⟨d₁, hd₁, hrest⟩ := foldlM_cons_eq_ok.mp h
    rw [ih hrest, lookup_lockOutput hd₁]
    cases d.outputs.lookup k with
    | none => rfl
    | some r =>
      by_cases hc : k = c.keyId ∧ r.value = c.value
      · have hex : ∃ c' ∈ c :: coins, c'.keyId = k ∧ c'.value = r.value :=
          ⟨c, by simp, hc.1.symm, hc.2.symm⟩
        simp only [Option.map_some, if_pos hc, if_pos hex]
        exact congrArg some (ite_self r.lock)
      · have hiff : (∃ c' ∈ c :: coins, c'.keyId = k ∧ c'.value = r.value)
            ↔ ∃ c' ∈ coins, c'.keyId = k ∧ c'.value = r.value := by
          simp only [List.mem_cons, exists_eq_or_imp, or_iff_right_iff_imp]
          exact fun he => absurd ⟨he.1.symm, he.2.symm⟩ hc
        simp only [Option.map_some, if_neg hc, hiff]

/-- Coins can be locked when all of them are recorded. -/
theorem exists_lockCoins {d : WalletData} {coins : List OutputData} :
    (∃ d', d.lockCoins coins = .ok d') ↔ ∀ c ∈ coins, ∃ r, d.outputs.lookup c.keyId = some r := by
  induction coins generalizing d with
  | nil => exact ⟨fun _ _ hc => absurd hc List.not_mem_nil, fun _ => ⟨d, rfl⟩⟩
  | cons c coins ih =>
    have hkept : ∀ d₁, d.lockOutput c = .ok d₁ → ∀ k,
        (∃ r, d₁.outputs.lookup k = some r) ↔ ∃ r, d.outputs.lookup k = some r := by
      intro d₁ hd₁ k
      rw [lookup_lockOutput hd₁]
      cases d.outputs.lookup k <;> simp
    constructor
    · rintro ⟨d', h⟩
      obtain ⟨d₁, hd₁, hrest⟩ := foldlM_cons_eq_ok.mp h
      intro c' hc'
      rcases List.mem_cons.mp hc' with rfl | hc'
      · unfold lockOutput at hd₁
        split at hd₁
        · cases hd₁
        · next r hr => exact ⟨r, hr⟩
      · exact (hkept d₁ hd₁ _).mp (ih.mp ⟨d', hrest⟩ c' hc')
    · intro h
      obtain ⟨r, hr⟩ := h c (by simp)
      have hlock : ∃ d₁, d.lockOutput c = .ok d₁ := by
        unfold lockOutput
        rw [hr]
        simp only
        split <;> exact ⟨_, rfl⟩
      obtain ⟨d₁, hd₁⟩ := hlock
      obtain ⟨d', hd'⟩ := ih.mpr fun c' hc' => (hkept d₁ hd₁ _).mpr (h c' (by simp [hc']))
      refine ⟨d', ?_⟩
      rw [lockCoins, List.foldlM_cons, hd₁, ok_bind]
      exact hd'

end WalletLemmas

/-! ## Updates in place -/

/-- A record is out of reach of a selection. -/
def OutputData.Taken (o : OutputData) : Prop := o.status = .locked ∨ o.status = .spent

/-- What an update of a record keeps: all that identifies the output, and that it is taken. -/
structure OutputData.Evolves (o o' : OutputData) : Prop where
  rootKeyId : o'.rootKeyId = o.rootKeyId
  keyId : o'.keyId = o.keyId
  nChild : o'.nChild = o.nChild
  value : o'.value = o.value
  taken : o.Taken → o'.Taken

theorem OutputData.Evolves.refl (o : OutputData) : o.Evolves o := ⟨rfl, rfl, rfl, rfl, id⟩

theorem OutputData.Evolves.trans {o₁ o₂ o₃ : OutputData} (h : o₁.Evolves o₂) (h' : o₂.Evolves o₃) :
    o₁.Evolves o₃ where
  rootKeyId := h'.rootKeyId.trans h.rootKeyId
  keyId := h'.keyId.trans h.keyId
  nChild := h'.nChild.trans h.nChild
  value := h'.value.trans h.value
  taken := fun ht => h'.taken (h.taken ht)

theorem OutputData.evolves_lock (o : OutputData) : o.Evolves o.lock :=
  ⟨rfl, rfl, rfl, rfl, fun _ => .inl rfl⟩

/-- A wallet was updated in place: it has the records it had, each of them evolved. -/
def WalletData.Evolves (d d' : WalletData) : Prop :=
  ∀ k, Option.Rel OutputData.Evolves (d.outputs.lookup k) (d'.outputs.lookup k)

namespace WalletLemmas

theorem evolves_of_lookup {d d' : WalletData} {f : String → OutputData → OutputData}
    (h : ∀ k, d'.outputs.lookup k = (d.outputs.lookup k).map (f k))
    (hf : ∀ k (o : OutputData), o.Evolves (f k o)) : d.Evolves d' := by
  intro k
  rw [h]
  cases d.outputs.lookup k with
  | none => exact .none
  | some o => exact .some (hf k o)

theorem evolves_refl (d : WalletData) : d.Evolves d := by
  intro k
  cases d.outputs.lookup k with
  | none => exact .none
  | some o => exact .some (.refl o)

theorem evolves_trans {d₁ d₂ d₃ : WalletData} (h : d₁.Evolves d₂) (h' : d₂.Evolves d₃) :
    d₁.Evolves d₃ := by
  intro k
  have hk := h k
  have hk' := h' k
  revert hk hk'
  rcases d₁.outputs.lookup k with _ | o₁ <;> rcases d₂.outputs.lookup k with _ | o₂ <;>
    rcases d₃.outputs.lookup k with _ | o₃ <;> rintro ⟨⟩ ⟨⟩
  · exact .none
  · next h h' => exact .some (h.trans h')

/-- A record of the wallet before is one of the wallet after. -/
theorem lookup_of_evolves {d d' : WalletData} (h : d.Evolves d') {k : String} {o : OutputData}
    (ho : d.outputs.lookup k = some o) : ∃ o', d'.outputs.lookup k = some o' ∧ o.Evolves o' := by
  have hk := h k
  rw [ho] at hk
  cases hk' : d'.outputs.lookup k with
  | none => rw [hk'] at hk; cases hk
  | some o' =>
    rw [hk'] at hk
    cases hk with
    | some he => exact ⟨o', rfl, he⟩

/-- A record of the wallet after was one of the wallet before. -/
theorem lookup_of_evolves' {d d' : WalletData} (h : d.Evolves d') {k : String} {o' : OutputData}
    (ho : d'.outputs.lookup k = some o') : ∃ o, d.outputs.lookup k = some o ∧ o.Evolves o' := by
  have hk := h k
  rw [ho] at hk
  cases hk' : d.outputs.lookup k with
  | none => rw [hk'] at hk; cases hk
  | some o =>
    rw [hk'] at hk
    cases hk with
    | some he => exact ⟨o, rfl, he⟩

theorem evolves_lockCoins {d d' : WalletData} {coins : List OutputData}
    (h : d.lockCoins coins = .ok d') : d.Evolves d' := by
  refine evolves_of_lookup (lookup_lockCoins h) fun k o => ?_
  split
  · exact o.evolves_lock
  · exact .refl o

end WalletLemmas

/-! ## Selection -/

namespace SelectLemmas

open WalletData

theorem takeUntil_subset (amount selectedAmount : UInt64) (l : List OutputData) :
    takeUntil amount selectedAmount l ⊆ l := by
  induction l generalizing selectedAmount with
  | nil => simp [takeUntil]
  | cons o l ih =>
    unfold takeUntil
    split
    · exact List.cons_subset_cons o (ih _)
    · simp

theorem selectFrom_subset {amount : UInt64} {selectAll : Bool} {outputs coins : List OutputData}
    (h : selectFrom amount selectAll outputs = .ok coins) : coins ⊆ outputs := by
  obtain ⟨total, -, h⟩ := bind_eq_ok.mp h
  split at h
  · obtain rfl := Except.ok.inj h
    split
    · exact List.Subset.refl _
    · exact takeUntil_subset amount 0 outputs
  · obtain rfl := Except.ok.inj h
    exact List.nil_subset _

theorem tuples_subset {α : Type} {groupCount fuel : ℕ} {l window : List α}
    (h : window ∈ tuples groupCount fuel l) : window ⊆ l := by
  induction fuel generalizing l with
  | zero => cases h
  | succ fuel ih =>
    cases l with
    | nil => cases h
    | cons a l =>
      rcases List.mem_cons.mp h with rfl | h
      · exact List.take_subset _ _
      · exact List.Subset.trans (ih h) (List.drop_subset _ _)

theorem selectWindow_subset {amount : UInt64} {selectAll : Bool} {windows : List (List OutputData)}
    {coins all : List OutputData} (hall : ∀ window ∈ windows, window ⊆ all)
    (h : selectWindow amount selectAll windows = .ok (some coins)) : coins ⊆ all := by
  induction windows with
  | nil => cases h
  | cons window windows ih =>
    obtain ⟨outputs2, houtputs2, h⟩ := bind_eq_ok.mp h
    split at h
    · obtain rfl := Option.some.inj (Except.ok.inj h)
      exact List.Subset.trans (selectFrom_subset houtputs2) (hall window (by simp))
    · exact ih (fun w hw => hall w (by simp [hw])) h

/-- What `Select` answers was eligible. -/
theorem select_subset {env : Env} {d : WalletData} {rootKeyId : Identifier}
    {amount currentHeight minimumConfirmations : UInt64} {maxOutputs : UInt32}
    {defaultStrategy : Bool} {coins : List OutputData}
    (h : d.select env rootKeyId amount currentHeight minimumConfirmations maxOutputs
      defaultStrategy = .ok coins) :
    coins ⊆ d.eligible env rootKeyId currentHeight minimumConfirmations := by
  obtain ⟨found, hfound, h⟩ := bind_eq_ok.mp h
  cases found with
  | none =>
    obtain rfl := Except.ok.inj h
    exact fun o ho => List.mem_reverse.mp (List.mem_of_mem_take ho)
  | some outputs2 =>
    obtain rfl := Except.ok.inj h
    unfold selectEligible at hfound
    split at hfound
    · split at hfound
      · cases hfound
      · exact selectWindow_subset (fun _ => tuples_subset) hfound
    · exact selectWindow_subset (by simp) hfound

/-- What `Select` answers is on record, and neither spent nor locked. -/
theorem recorded_of_select {env : Env} {d : WalletData} {rootKeyId : Identifier}
    {amount currentHeight minimumConfirmations : UInt64} {maxOutputs : UInt32}
    {defaultStrategy : Bool} {coins : List OutputData}
    (h : d.select env rootKeyId amount currentHeight minimumConfirmations maxOutputs
      defaultStrategy = .ok coins) {c : OutputData} (hc : c ∈ coins) :
    (∃ k, d.outputs.lookup k = some c) ∧ c.status ≠ .spent ∧ c.status ≠ .locked := by
  have hmem := select_subset h hc
  rw [eligible, List.mem_insertionSort, List.mem_filter, Bool.and_eq_true] at hmem
  exact ⟨Dictionary.mem_values_iff.mp hmem.1, OutputData.status_of_eligible hmem.2.2⟩

end SelectLemmas

/-! ## Key ids -/

/-- Every record is filed under its own key id, which is the hex of an identifier. -/
def WalletData.Filed (d : WalletData) : Prop :=
  ∀ k o, d.outputs.lookup k = some o → o.keyId = k ∧
    ∃ id, Identifier.fromHex k = .ok id ∧ id.hexValue = k

/-- Nothing was lost: every record is there, possibly evolved. -/
def WalletData.Keeps (d d' : WalletData) : Prop :=
  ∀ k o, d.outputs.lookup k = some o → ∃ o', d'.outputs.lookup k = some o' ∧ o.Evolves o'

/-- Every record is filed under its own key id. -/
def WalletData.WellKeyed (d : WalletData) : Prop :=
  ∀ k o, d.outputs.lookup k = some o → o.keyId = k

namespace WalletLemmas

theorem wellKeyed_addOutput {d d' : WalletData} {o : OutputData} (h : d.addOutput o = .ok d')
    (hd : d.WellKeyed) : d'.WellKeyed := by
  intro k r hr
  rw [lookup_addOutput h] at hr
  split at hr
  · next hk => rw [hk, Option.some.inj hr]
  · exact hd k r hr

theorem wellKeyed_evolves {d d' : WalletData} (h : d.Evolves d') (hd : d.WellKeyed) :
    d'.WellKeyed := by
  intro k o' ho'
  obtain ⟨o, ho, he⟩ := lookup_of_evolves' h ho'
  rw [he.keyId, hd k o ho]

theorem filed_evolves {d d' : WalletData} (h : d.Evolves d') (hd : d.Filed) : d'.Filed := by
  intro k o' ho'
  obtain ⟨o, ho, he⟩ := lookup_of_evolves' h ho'
  rw [he.keyId]
  exact hd k o ho

theorem keeps_of_evolves {d d' : WalletData} (h : d.Evolves d') : d.Keeps d' :=
  fun _ _ ho => lookup_of_evolves h ho

theorem keeps_addOutput {d d' : WalletData} {o : OutputData} (h : d.addOutput o = .ok d') :
    d.Keeps d' := by
  intro k r hr
  have hne : k ≠ o.keyId := by
    rintro rfl
    have hnone := (Dictionary.add_eq_some_iff.mp (addOutput_eq_ok_iff.mp h)).1
    rw [hr] at hnone
    cases hnone
  exact ⟨r, by rw [lookup_addOutput h, if_neg hne, hr], .refl r⟩

theorem lookup_deleteOutput (d : WalletData) (id : Identifier) (k : String) :
    (d.deleteOutput id).outputs.lookup k
      = if k = id.hexValue then none else d.outputs.lookup k :=
  Dictionary.lookup_remove d.outputs id.hexValue k

theorem wellKeyed_deleteOutput {d : WalletData} (hd : d.WellKeyed) (id : Identifier) :
    (d.deleteOutput id).WellKeyed := by
  intro k o ho
  rw [lookup_deleteOutput] at ho
  split at ho
  · cases ho
  · exact hd k o ho

end WalletLemmas

end GrinDotnet
