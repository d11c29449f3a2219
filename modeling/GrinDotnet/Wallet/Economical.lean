import GrinDotnet.Lib.Covering
import GrinDotnet.Wallet.BestSelection

/-!
# The economical strategy

`Select_from` takes an output before it looks whether those before it were enough, so it takes one
more than it needs wherever there is one more.

Results:
1. `selectFrom_eq_take`: what the strategy selects.
2. `selectFrom_shortest_iff`: when that is as few outputs as necessary.
-/

namespace GrinDotnet

open Outcome SelectLemmas

namespace WalletData

/-- The worth of an output, as a number. -/
def coinWorth (o : OutputData) : ℕ := o.value.toNat

theorem total_eq_worth (l : List OutputData) : Covering.total coinWorth l = worth l := by
  rw [Covering.total, worth, exactSum, List.map_map]
  rfl

/-- The loop takes what it still needs and one more. -/
theorem takeUntil_eq_take {amount selectedAmount : UInt64} {l : List OutputData}
    (hsum : selectedAmount.toNat + worth l < 2 ^ 64) :
    takeUntil amount selectedAmount l =
      l.take (Covering.coverLength coinWorth (amount.toNat - selectedAmount.toNat) l + 1) := by
  induction l generalizing selectedAmount with
  | nil => simp [takeUntil]
  | cons o l ih =>
    rw [worth_cons] at hsum
    unfold takeUntil
    split
    · next hneed =>
      have hadd : (selectedAmount + o.value).toNat = selectedAmount.toNat + o.value.toNat := by
        rw [UInt64.toNat_add, Nat.mod_eq_of_lt (by omega)]
      have hpos : 0 < amount.toNat - selectedAmount.toNat :=
        Nat.sub_pos_of_lt (UInt64.lt_iff_toNat_lt.mp hneed)
      rw [ih (by rw [hadd]; omega), hadd, Covering.coverLength_cons hpos, List.take_succ_cons,
        Nat.sub_add_eq]
      rfl
    · next henough =>
      have hzero : amount.toNat - selectedAmount.toNat = 0 :=
        Nat.sub_eq_zero_of_le (UInt64.le_iff_toNat_le.mp (UInt64.not_lt.mp henough))
      rw [hzero, Covering.coverLength_zero]
      rfl

section Cover

variable {amount : UInt64} {outputs : List OutputData} (hsum : worth outputs < 2 ^ 64)
  (hcover : amount.toNat ≤ worth outputs)

include hsum hcover

/-- Outputs that cover the amount are selected up to the one behind the shortest prefix that does. -/
theorem selectFrom_eq_take (hsome : outputs ≠ []) : selectFrom amount false outputs =
    .ok (outputs.take (Covering.coverLength coinWorth amount.toNat outputs + 1)) := by
  obtain ⟨total, htotal, hworth⟩ := aggregate_worth hsome hsum
  have hle : amount ≤ total := by rwa [UInt64.le_iff_toNat_le, hworth]
  have htake : takeUntil amount 0 outputs =
      outputs.take (Covering.coverLength coinWorth amount.toNat outputs + 1) :=
    takeUntil_eq_take (by simpa using hsum)
  rw [selectFrom, htotal, ok_bind, if_pos hle]
  exact congrArg Except.ok htake

/-- The strategy selects as few outputs as necessary exactly when all of them are. -/
theorem selectFrom_shortest_iff (hsome : outputs ≠ []) (hpos : 0 < amount.toNat) :
    (∃ coins, selectFrom amount false outputs = .ok coins ∧
        Covering.Shortest coinWorth amount.toNat coins outputs) ↔
      worth outputs.dropLast < amount.toNat := by
  rw [← total_eq_worth] at hcover
  have hlength := Covering.coverLength_le_length (f := coinWorth) amount.toNat outputs
  have hselect := selectFrom_eq_take hsum (by rwa [← total_eq_worth]) hsome
  rw [← total_eq_worth, ← Covering.coverLength_eq_length_iff hpos hcover]
  constructor
  · rintro ⟨coins, hcoins, hshortest⟩
    have htake : outputs.take (Covering.coverLength coinWorth amount.toNat outputs + 1) =
        outputs.take (Covering.coverLength coinWorth amount.toNat outputs) :=
      (Except.ok.inj (hselect.symm.trans hcoins)).trans (hshortest.eq_take hpos)
    -- one more output makes no difference only where there is none
    have hlen := congrArg List.length htake
    rw [List.length_take, List.length_take] at hlen
    omega
  · intro hall
    refine ⟨_, hselect, ?_⟩
    have htake := Covering.shortest_take hpos hcover
    rw [hall, List.take_of_length_le (le_refl _)] at htake
    rwa [hall, List.take_of_length_le (Nat.le_succ _)]

end Cover

/-- A spendable output of a value. -/
def coin (value : UInt64) : OutputData where
  rootKeyId := "00"
  keyId := "01"
  nChild := 1
  value := value
  status := .unspent
  height := 0
  lockHeight := 0
  isCoinbase := false

theorem selectFrom_shortest_iff_coins :
    (∃ coins, selectFrom 12 false [coin 10, coin 5] = .ok coins ∧
        Covering.Shortest coinWorth 12 coins [coin 10, coin 5]) ∧
      ¬ ∃ coins, selectFrom 10 false [coin 10, coin 5] = .ok coins ∧
        Covering.Shortest coinWorth 10 coins [coin 10, coin 5] := by
  have hsum : worth [coin 10, coin 5] < 2 ^ 64 := by decide
  have htwelve : (12 : UInt64).toNat ≤ worth [coin 10, coin 5] := by decide
  have hten : (10 : UInt64).toNat ≤ worth [coin 10, coin 5] := by decide
  constructor
  · exact (selectFrom_shortest_iff hsum htwelve (by decide) (by decide)).mpr (by decide)
  · intro h
    exact absurd ((selectFrom_shortest_iff hsum hten (by decide) (by decide)).mp h) (by decide)

/-- An output of ten covers ten, and the one of five behind it is spent too. -/
theorem one_output_too_many :
    selectFrom 10 false [coin 10, coin 5] = .ok [coin 10, coin 5] ∧
      ¬ Covering.Shortest coinWorth 10 [coin 10, coin 5] [coin 10, coin 5] := by
  refine ⟨rfl, fun h => ?_⟩
  exact absurd h.dropLast_lt (by decide)

end WalletData

end GrinDotnet
