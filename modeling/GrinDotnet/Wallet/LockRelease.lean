import GrinDotnet.Wallet.Receiver

/-!
# Releasing the wallet lock

The stream of the lock file is disposed as the last statement of `With_wallet`, outside of any
`finally`. Whatever raises between opening and disposing it leaves the lock held, and without the
finalizer no later call gets it.

Results:
1. `lockHeld_call_iff`: when one call that finds the lock free gives it back.
2. `lock_free_iff`: when every call of a sequence does.
-/

namespace GrinDotnet

open Outcome WorldLemmas

/-- A call of `With_wallet`: its closure, with the type of its answer, and what fails during it. No
finalizer runs. -/
structure WalletCall where
  Result : Type
  fault : Option IoFault
  closure : WalletData → Except Exn (Result × WalletData)

namespace WalletCall

variable (config : WalletConfig)

/-- The call as an operation. -/
def run (call : WalletCall) : WalletM call.Result :=
  withWallet config ⟨false, call.fault⟩ call.closure

/-- The world after a sequence of calls, whether they answer or raise. -/
def runAll (calls : List WalletCall) (w : World) : World :=
  calls.foldl (fun w call => ((call.run config).exec w).2) w

/-- The call raises before the lock file is open. -/
def Unopened (call : WalletCall) : Prop :=
  ∃ e, call.fault = some (.createDirectory e) ∨ call.fault = some (.openLock e)

/-- Nothing raises between opening and disposing the lock file: the file is read, the closure answers,
and the write is whole. -/
def Finishes (call : WalletCall) (w : World) : Prop :=
  (call.fault = none ∨ call.fault = some .dispose) ∧
    ∃ data r, w.file.readOrCreate = .ok data ∧ call.closure data = .ok r

/-- A call that finds the lock free gives it back exactly when nothing raises while it is held. -/
theorem lockHeld_call_iff (call : WalletCall) {w : World} (hfree : w.lockHeld = false) :
    ((call.run config).exec w).2.lockHeld = false ↔ call.Unopened ∨ call.Finishes w := by
  have hcalled := called_withWallet config ⟨false, call.fault⟩ call.closure w
  have hrun : (call.run config).exec w =
      (withWallet config ⟨false, call.fault⟩ call.closure).exec w := rfl
  rw [hrun]
  generalize (withWallet config ⟨false, call.fault⟩ call.closure).exec w = r at hcalled
  cases hcalled with
  | refused e hacq =>
    refine iff_of_true hfree (.inl ?_)
    by_contra hopen
    refine hacq ⟨fun e he => hopen ⟨e, .inl he⟩, fun e he => hopen ⟨e, .inr he⟩, fun hheld => ?_⟩
    rw [hfree] at hheld
    cases hheld
  | raised e hacq hnone =>
    refine iff_of_false (fun h => by cases h) ?_
    rintro (⟨e, hdir | hopen⟩ | ⟨hfault, data, r, hread, hclosure⟩)
    · exact hacq.1 e hdir
    · exact hacq.2.1 e hopen
    · have htruncates : Truncates ⟨false, call.fault⟩ w := by
        refine ⟨hacq, fun fault hf => .inl ?_⟩
        rcases hfault with hfault | hfault
        · cases hf.symm.trans hfault
        · exact Option.some.inj (hf.symm.trans hfault)
      exact hnone htruncates data hread r hclosure
  | tore e htruncates htore hread hclosure =>
    refine iff_of_false (fun h => by cases h) ?_
    rintro (⟨e, hdir | hopen⟩ | ⟨hfault | hfault, -⟩)
    · exact htruncates.1.1 e hdir
    · exact htruncates.1.2.1 e hopen
    · cases htore.symm.trans hfault
    · cases htore.symm.trans hfault
  | undisposed e _ hfault hread hclosure =>
    exact iff_of_true rfl (.inr ⟨.inr hfault, _, _, hread, hclosure⟩)
  | done _ hfault hread hclosure =>
    exact iff_of_true rfl (.inr ⟨.inl hfault, _, _, hread, hclosure⟩)

theorem runAll_succ {calls : List WalletCall} {n : ℕ} (hn : n < calls.length) (w : World) :
    runAll config (calls.take (n + 1)) w =
      ((calls[n].run config).exec (runAll config (calls.take n) w)).2 := by
  rw [runAll, ← List.take_concat_get' calls n hn, List.foldl_append]
  rfl

/-- In a sequence of calls that begins with the lock free, the lock is free after every call exactly
when nothing raises in any of them while it holds the lock. -/
theorem lock_free_iff (calls : List WalletCall) {w : World} (hfree : w.lockHeld = false) :
    (∀ n ≤ calls.length, (runAll config (calls.take n) w).lockHeld = false) ↔
      ∀ n (hn : n < calls.length),
        calls[n].Unopened ∨ calls[n].Finishes (runAll config (calls.take n) w) := by
  constructor
  · intro h n hn
    have hafter := h (n + 1) hn
    rw [runAll_succ config hn] at hafter
    exact (lockHeld_call_iff config calls[n] (h n hn.le)).mp hafter
  · intro h n hn
    induction n with
    | zero => exact hfree
    | succ n ih =>
      rw [runAll_succ config hn]
      exact (lockHeld_call_iff config calls[n] (ih (Nat.le_of_succ_le hn))).mpr (h n hn)

/-! ### Over pairs -/

/-- A payment is received. -/
def pairPayment : WalletCall :=
  ⟨Identifier × UInt32, none, WalletReceiver.addReceived pairSender 5⟩

/-- A reward is received for a key that is not in the wallet. -/
def pairMissingKey : WalletCall :=
  ⟨Identifier × UInt32, none,
    WalletReceiver.addCoinbase pairSender ⟨0, 0, some Identifier.zero⟩⟩

/-- The condition for two payments one after the other. -/
theorem lock_free_iff_pairs :
    (∀ n ≤ [pairPayment, pairPayment].length,
      (runAll ⟨""⟩ ([pairPayment, pairPayment].take n) ⟨.absent, false, [], []⟩).lockHeld = false) ↔
      ∀ n (hn : n < [pairPayment, pairPayment].length),
        [pairPayment, pairPayment][n].Unopened ∨ [pairPayment, pairPayment][n].Finishes
          (runAll ⟨""⟩ ([pairPayment, pairPayment].take n) ⟨.absent, false, [], []⟩) :=
  lock_free_iff ⟨""⟩ [pairPayment, pairPayment] rfl

/-- A closure that raises leaves the lock held, and the call after it does not get it. -/
theorem lock_leaked :
    (runAll ⟨""⟩ [pairMissingKey] ⟨.absent, false, [], []⟩).lockHeld = true ∧
      ((pairPayment.run ⟨""⟩).exec (runAll ⟨""⟩ [pairMissingKey] ⟨.absent, false, [], []⟩)).1
        = .error lockFailed := by
  constructor <;> rfl

end WalletCall

end GrinDotnet
