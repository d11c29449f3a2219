import GrinDotnet.Lib.Pool
import GrinDotnet.Wallet.Receiver

/-!
# Concurrent wallet updates

Calls of `With_wallet` on one directory, cut into their steps: create the directory, try to open the
lock file, read, run the closure, truncate, write, dispose. The stream of the lock file excludes the
others until it is disposed, by its call or, when the call raised, by the finalizer.

Results:
1. `alone_called`: taken one after the other, the steps are `With_wallet`.
2. `serializable`: the file is what the closures of the calls that ended make of the first file, in
   the order in which they opened the lock file.
-/

namespace GrinDotnet

open Outcome WorldLemmas

namespace WithWallet

variable {ι α : Type}

/-- A call: its closure and what fails during it. -/
structure Call (α : Type) where
  fault : Option IoFault
  closure : WalletData → Except Exn (α × WalletData)

/-- The retries of the policy. -/
def maxRetries : ℕ := 5

/-- Where a call stands. -/
inductive Stage (α : Type)
  | called
  /-- The lock file is not open; this many retries are left. -/
  | trying (retries : ℕ)
  | opened
  | loaded (data : WalletData)
  | computed (res : α) (data : WalletData)
  /-- The wallet file is open for writing, and empty. -/
  | truncated (res : α) (data : WalletData)
  | written (res : α)
  /-- The lock file was disposed. -/
  | ended (answer : Except Exn α)
  /-- It raised while the lock file was open. -/
  | raised (e : Exn)
  /-- It raised before it opened the lock file. -/
  | refused (e : Exn)

namespace Stage

/-- The lock file is open in this call. -/
def holds : Stage α → Bool
  | opened | loaded _ | computed .. | truncated .. | written _ => true
  | called | trying _ | ended _ | raised _ | refused _ => false

/-- The call has opened the lock file. -/
def entered : Stage α → Bool
  | ended _ | raised _ => true
  | stage => stage.holds

def isEnded : Stage α → Bool
  | ended _ => true
  | _ => false

/-- What the call gives back, once it does. -/
def answer : Stage α → Option (Except Exn α)
  | ended answer => some answer
  | raised e | refused e => some (.error e)
  | _ => none

end Stage

/-- The directory, and who has its lock file open; a handle that a call left behind belongs to the
world. The last field records the order in which the lock file was opened. -/
structure Store (ι : Type) where
  world : World
  holder : Option ι
  acquired : List ι

namespace Store

/-- The directory with other content of the wallet file. -/
def write (s : Store ι) (file : WalletFile) : Store ι := { s with world.file := file }

/-- The holder raises, and its stream stays open. -/
def leak (s : Store ι) : Store ι := { s with world.lockHeld := true, holder := none }

end Store

/-- The exception of one attempt at the lock file, which may be open already. -/
def openLock (fault : Option IoFault) (s : Store ι) : Option Exn :=
  match fault with
  | some (.openLock e) => some e
  | _ => if s.world.lockHeld ∨ s.holder.isSome then some .io else none

/-- What the call gives back after the file was written. -/
def disposed (fault : Option IoFault) (res : α) : Except Exn α :=
  match fault with
  | some .dispose =>
    .error (.wallet .walletData
      (some "Could not remove wallet lock file. Maybe insufficient rights?") [])
  | _ => .ok res

/-- The next step of a call. -/
def move (config : WalletConfig) (calls : ι → Call α) (i : ι) :
    Stage α → Store ι → Stage α × Store ι
  | .called, s =>
    match (calls i).fault with
    | some (.createDirectory e) => (.refused e, s)
    | _ => (.trying maxRetries, s)
  | .trying retries, s =>
    match openLock (calls i).fault s with
    | none => (.opened, { s with holder := some i, acquired := s.acquired ++ [i] })
    | some e =>
      if e = .io then
        match retries with
        | 0 => (.refused lockFailed, s)
        | retries + 1 => (.trying retries, s)
      else (.refused e, s)
  | .opened, s =>
    match (calls i).fault with
    | some (.read e) => (.raised e, s.leak)
    | _ =>
      match s.world.file.readOrCreate with
      | .ok data => (.loaded data, s)
      | .error e => (.raised e, s.leak)
  | .loaded data, s =>
    match (calls i).closure data with
    | .ok (res, data') => (.computed res data', s)
    | .error e => (.raised e, s.leak)
  | .computed res data, s =>
    match (calls i).fault with
    | some (.create message) =>
      (.raised (.wallet .walletData
        (some ("Could not create " ++ config.dataFilePath ++ ": " ++ message)) []), s.leak)
    | _ => (.truncated res data, s.write (.torn .nullReference))
  | .truncated res data, s =>
    match (calls i).fault with
    | some (.serialize message onRead) =>
      (.raised (.wallet .walletData (some ("Error serializing wallet data: " ++ message)) []),
        (s.write (.torn onRead)).leak)
    | _ => (.written res, s.write (.stored data))
  | .written res, s => (.ended (disposed (calls i).fault res), { s with holder := none })
  | stage, s => (stage, s)

/-- A call alone: its next step. -/
def alone (config : WalletConfig) (calls : ι → Call α) (i : ι) (p : Stage α × Store ι) :
    Stage α × Store ι := move config calls i p.1 p.2

variable {config : WalletConfig} {calls : ι → Call α} {i : ι} {s : Store ι}

theorem alone_refused (e : Exn) (n : ℕ) :
    (alone config calls i)^[n] (.refused e, s) = (.refused e, s) :=
  Function.iterate_fixed rfl n

theorem alone_raised (e : Exn) (n : ℕ) :
    (alone config calls i)^[n] (.raised e, s) = (.raised e, s) :=
  Function.iterate_fixed rfl n

/-- The retries against a lock file that stays open. -/
theorem alone_trying (h : openLock (calls i).fault s = some .io) (retries : ℕ) :
    (alone config calls i)^[retries + 1] (.trying retries, s) = (.refused lockFailed, s) := by
  induction retries with
  | zero => simp [alone, move, h]
  | succ retries ih =>
    rw [Function.iterate_succ_apply]
    have hnext : alone config calls i (.trying (retries + 1), s) = (.trying retries, s) := by
      simp [alone, move, h]
    rw [hnext, ih]

/-- Behind the lock file, the steps are those of the source. -/
theorem alone_opened (hheld : s.world.lockHeld = false) :
    (((alone config calls i)^[5] (.opened, s)).1.answer,
      ((alone config calls i)^[5] (.opened, s)).2.world) =
    (some ((withLock config (calls i).fault (calls i).closure).exec s.world).1,
      ((withLock config (calls i).fault (calls i).closure).exec s.world).2) := by
  obtain ⟨⟨file, held, delivered, printed⟩, holder, acquired⟩ := s
  obtain rfl : held = false := hheld
  cases hread : file.readOrCreate with
  | error e =>
    -- the read raises, whichever fault there is
    have hraise : ∃ e', alone config calls i
          (.opened, ⟨⟨file, false, delivered, printed⟩, holder, acquired⟩)
        = (.raised e', ⟨⟨file, true, delivered, printed⟩, none, acquired⟩) ∧
        (withLock config (calls i).fault (calls i).closure).exec ⟨file, false, delivered, printed⟩
        = (.error e', ⟨file, true, delivered, printed⟩) := by
      cases hfault : (calls i).fault with
      | none =>
        exact ⟨e, by simp [alone, move, hfault, hread, Store.leak],
          by simp [WalletM.exec, withLock, hread]⟩
      | some fault =>
        cases fault <;> simp [alone, move, hfault, hread, Store.leak, WalletM.exec, withLock]
    obtain ⟨e', hnext, hlock⟩ := hraise
    rw [Function.iterate_succ_apply, hnext, alone_raised, hlock]
    rfl
  | ok data =>
    cases hclosure : (calls i).closure data
    all_goals
      cases hfault : (calls i).fault with
      | none =>
        simp [Function.iterate_succ_apply, alone, move, hfault, hread, hclosure, Store.leak,
          Store.write, WalletM.exec, withLock, disposed, Stage.answer]
      | some fault =>
        cases fault <;>
          simp [Function.iterate_succ_apply, alone, move, hfault, hread, hclosure, Store.leak,
            Store.write, WalletM.exec, withLock, disposed, Stage.answer]

/-- The lock file opens when nothing fails and nobody has it open. -/
theorem openLock_eq_none {fault : Option IoFault} :
    openLock fault s = none ↔
      (∀ e, fault ≠ some (.openLock e)) ∧ s.world.lockHeld = false ∧ s.holder = none := by
  unfold openLock
  split
  · next e =>
    refine iff_of_false (by simp) fun h => ?_
    exact h.1 e rfl
  · next hfault => simpa using fun _ _ e he => hfault e he

/-- An attempt that fails also fails in the source, which gives up on it in the end. -/
theorem withWallet_of_openLock {e : Exn} (hdir : ∀ e, (calls i).fault ≠ some (.createDirectory e))
    (hfree : s.holder = none) (h : openLock (calls i).fault s = some e) :
    (withWallet config ⟨false, (calls i).fault⟩ (calls i).closure).exec s.world =
      (.error (if e = .io then lockFailed else e), s.world) := by
  simp only [WalletM.exec, withWallet]
  split
  · next e' hfault => exact absurd hfault (hdir e')
  · next e' hfault =>
    obtain rfl : e' = e := by simpa [openLock, hfault] using h
    rfl
  · next hdir' hopen =>
    have hopen' : openLock (calls i).fault s = if s.world.lockHeld then some .io else none := by
      unfold openLock
      split
      · next e' hfault => exact absurd hfault (hopen e')
      · simp [hfree]
    by_cases hheld : s.world.lockHeld = true
    · rw [hopen', if_pos hheld] at h
      cases h
      simp [hheld]
    · rw [hopen', if_neg hheld] at h
      cases h

/-- Taken one after the other, the steps of a call do what the source does. -/
theorem alone_called (config : WalletConfig) (calls : ι → Call α) (i : ι) {s : Store ι}
    (hfree : s.holder = none) :
    (((alone config calls i)^[7] (.called, s)).1.answer,
      ((alone config calls i)^[7] (.called, s)).2.world) =
    (some ((withWallet config ⟨false, (calls i).fault⟩ (calls i).closure).exec s.world).1,
      ((withWallet config ⟨false, (calls i).fault⟩ (calls i).closure).exec s.world).2) := by
  by_cases hdir : ∃ e, (calls i).fault = some (.createDirectory e)
  · obtain ⟨e, hdir⟩ := hdir
    have hnext : alone config calls i (.called, s) = (.refused e, s) := by
      simp [alone, move, hdir]
    rw [Function.iterate_succ_apply, hnext, alone_refused]
    simp [WalletM.exec, withWallet, hdir, Stage.answer]
  push Not at hdir
  have hcall : alone config calls i (.called, s) = (.trying maxRetries, s) := by
    simp only [alone, move]
  rw [Function.iterate_succ_apply, hcall]
  cases hlock : openLock (calls i).fault s with
  | none =>
    obtain ⟨hfault, hheld, -⟩ := openLock_eq_none.mp hlock
    have hopen : alone config calls i (.trying maxRetries, s) =
        (.opened, { s with holder := some i, acquired := s.acquired ++ [i] }) := by
      simp [alone, move, hlock]
    have hacq : Acquires ⟨false, (calls i).fault⟩ s.world := ⟨hdir, hfault, by simp [hheld]⟩
    rw [Function.iterate_succ_apply, hopen, withWallet_of_acquires hacq]
    exact alone_opened hheld
  | some e =>
    rw [withWallet_of_openLock hdir hfree hlock]
    by_cases hio : e = .io
    · subst hio
      rw [show 6 = maxRetries + 1 from rfl, alone_trying hlock]
      rfl
    · have hnext : alone config calls i (.trying maxRetries, s) = (.refused e, s) := by
        simp [alone, move, hlock, hio]
      rw [Function.iterate_succ_apply, hnext, alone_refused, if_neg hio]
      rfl

/-! ## What a step does -/

/-- The file is not cut short in this call: neither its read nor its write fails. -/
def Call.Whole (call : Call α) : Prop :=
  ∀ fault, call.fault = some fault →
    fault = .dispose ∨ ∃ e, fault = .createDirectory e ∨ fault = .openLock e

/-- What a step of a call can do, when neither reads nor writes fail. -/
inductive Transition (closure : WalletData → Except Exn (α × WalletData)) (i : ι) (s : Store ι) :
    Stage α → Stage α → Store ι → Prop
  /-- It has not opened the lock file. -/
  | waits {l l' : Stage α} : l.entered = false → l'.entered = false → Transition closure i s l l' s
  | acquires (retries : ℕ) : s.holder = none → Transition closure i s (.trying retries) .opened
      { s with holder := some i, acquired := s.acquired ++ [i] }
  | reads {data : WalletData} : s.world.file.readOrCreate = .ok data →
      Transition closure i s .opened (.loaded data) s
  | computes {data data' : WalletData} {res : α} : closure data = .ok (res, data') →
      Transition closure i s (.loaded data) (.computed res data') s
  /-- The content cannot be read, or the closure raised. -/
  | raises {l : Stage α} (e : Exn) : (l = .opened ∨ ∃ data, l = .loaded data) →
      Transition closure i s l (.raised e) s.leak
  | truncates (res : α) (data : WalletData) (e : Exn) :
      Transition closure i s (.computed res data) (.truncated res data) (s.write (.torn e))
  | writes (res : α) (data : WalletData) :
      Transition closure i s (.truncated res data) (.written res) (s.write (.stored data))
  /-- It answers, except when the lock file cannot be removed. -/
  | releases (res : α) {answer : Except Exn α} : (∀ res', answer = .ok res' → res' = res) →
      Transition closure i s (.written res) (.ended answer) { s with holder := none }
  /-- It is over. -/
  | stays (l : Stage α) : Transition closure i s l l s

theorem disposed_eq_ok {fault : Option IoFault} {res res' : α} (h : disposed fault res = .ok res') :
    res' = res := by
  unfold disposed at h
  split at h <;> cases h
  rfl

/-- Every step of a call is one of these. -/
theorem transition_move (config : WalletConfig) (hwhole : (calls i).Whole) (l : Stage α)
    (s : Store ι) :
    Transition (calls i).closure i s l (move config calls i l s).1 (move config calls i l s).2 := by
  cases l with
  | called =>
    simp only [move]
    split <;> exact .waits rfl rfl
  | trying retries =>
    simp only [move]
    split
    · next hlock => exact .acquires retries (openLock_eq_none.mp hlock).2.2
    · split
      · cases retries <;> exact .waits rfl rfl
      · exact .waits rfl rfl
  | opened =>
    simp only [move]
    split
    · next hfault => simpa using hwhole _ hfault
    · split
      · next hread => exact .reads hread
      · exact .raises _ (.inl rfl)
  | loaded data =>
    simp only [move]
    split
    · next hclosure => exact .computes hclosure
    · exact .raises _ (.inr ⟨data, rfl⟩)
  | computed res data =>
    simp only [move]
    split
    · next hfault => simpa using hwhole _ hfault
    · exact .truncates res data _
  | truncated res data =>
    simp only [move]
    split
    · next hfault => simpa using hwhole _ hfault
    · exact .writes res data
  | written res => exact .releases res fun res' => disposed_eq_ok
  | ended answer => exact .stays _
  | raised e => exact .stays _
  | refused e => exact .stays _

/-! ## One after the other -/

/-- The file after a closure was applied to its content; a closure that raises leaves it alone. -/
def applied (closure : WalletData → Except Exn (α × WalletData)) (file : WalletFile) : WalletFile :=
  match file.readOrCreate >>= closure with
  | .ok (_, data) => .stored data
  | .error _ => file

/-- The file after the closures of some calls were applied one after the other. -/
def serially (calls : ι → Call α) (file : WalletFile) (order : List ι) : WalletFile :=
  order.foldl (fun file i => applied (calls i).closure file) file

theorem serially_concat (file : WalletFile) (order : List ι) (i : ι) :
    serially calls file (order ++ [i]) = applied (calls i).closure (serially calls file order) := by
  simp [serially]

/-- The calls that ended, in the order in which they opened the lock file. -/
def completed (p : Pool ι (Store ι) (Stage α)) : List ι :=
  p.shared.acquired.filter fun i => (p.locals i).isEnded

/-- What the holder of the lock has done so far, from the file it found. -/
def Halfway (closure : WalletData → Except Exn (α × WalletData)) (found file : WalletFile) :
    Stage α → Prop
  | .opened => file = found
  | .loaded data => file = found ∧ found.readOrCreate = .ok data
  | .computed res data => file = found ∧ found.readOrCreate >>= closure = .ok (res, data)
  | .truncated res data => found.readOrCreate >>= closure = .ok (res, data)
  | .written res => ∃ data, file = .stored data ∧ found.readOrCreate >>= closure = .ok (res, data)
  | .called | .trying _ | .ended _ | .raised _ | .refused _ => False

/-- The lock excludes, and the order in which it was taken is recorded. -/
structure Locked (p : Pool ι (Store ι) (Stage α)) : Prop where
  held : ∀ i, (p.locals i).holds = true ↔ p.shared.holder = some i
  listed : ∀ i, i ∈ p.shared.acquired ↔ (p.locals i).entered = true
  once : p.shared.acquired.Nodup
  last : ∀ i, p.shared.holder = some i → ∃ before, p.shared.acquired = before ++ [i]

/-- The file is as far as the holder of the lock got from what the calls before it made of the first
file. -/
structure Inv (calls : ι → Call α) (first : WalletFile) (p : Pool ι (Store ι) (Stage α)) : Prop
    extends Locked p where
  free : p.shared.holder = none → p.shared.world.file = serially calls first (completed p)
  inside : ∀ i, p.shared.holder = some i → Halfway (calls i).closure
    (serially calls first (completed p)) p.shared.world.file (p.locals i)
  answered : ∀ i res, p.locals i = .ended (.ok res) → ∃ before after data,
    completed p = before ++ i :: after ∧
      (serially calls first before).readOrCreate >>= (calls i).closure = .ok (res, data)

theorem Stage.holds_of_not_entered {l : Stage α} (h : l.entered = false) : l.holds = false := by
  cases l <;> first | rfl | cases h

theorem Stage.isEnded_of_not_entered {l : Stage α} (h : l.entered = false) : l.isEnded = false := by
  cases l <;> first | rfl | cases h

namespace Transition

variable {closure : WalletData → Except Exn (α × WalletData)} {l l' : Stage α} {s' : Store ι}

/-- A step takes the lock only for its own call, when it is free, and writes down that it did. -/
theorem acquired (h : Transition closure i s l l' s') :
    (s'.acquired = s.acquired ∧ l'.entered = l.entered ∧
      ∀ j, s'.holder = some j → s.holder = some j) ∨
    (s'.acquired = s.acquired ++ [i] ∧ l.entered = false ∧ l' = .opened ∧
      s.holder = none ∧ s'.holder = some i) := by
  cases h with
  | acquires retries hfree => exact .inr ⟨rfl, rfl, rfl, hfree, rfl⟩
  | waits hl hl' => exact .inl ⟨rfl, hl'.trans hl.symm, fun _ => id⟩
  | raises e hl =>
    refine .inl ⟨rfl, ?_, fun j hj => by cases hj⟩
    rcases hl with rfl | ⟨data, rfl⟩ <;> rfl
  | releases => exact .inl ⟨rfl, rfl, fun j hj => by cases hj⟩
  | reads | computes | truncates | writes | stays => exact .inl ⟨rfl, rfl, fun _ => id⟩

/-- A step gives back or keeps the lock of its own call only. -/
theorem holder (h : Transition closure i s l l' s') (hheld : l.holds = true ↔ s.holder = some i) :
    (l'.holds = true ↔ s'.holder = some i) ∧
      ∀ j, j ≠ i → (s'.holder = some j ↔ s.holder = some j) := by
  cases h with
  | waits hl hl' =>
    rw [Stage.holds_of_not_entered hl] at hheld
    rw [Stage.holds_of_not_entered hl']
    exact ⟨hheld, fun _ _ => .rfl⟩
  | acquires retries hfree =>
    refine ⟨by simp [Stage.holds], fun j hj => ?_⟩
    simp [hfree, Ne.symm hj]
  | raises e hl =>
    have hi : s.holder = some i := hheld.mp (by rcases hl with rfl | ⟨data, rfl⟩ <;> rfl)
    refine ⟨by simp [Stage.holds, Store.leak], fun j hj => ?_⟩
    simp [Store.leak, hi, Ne.symm hj]
  | releases =>
    have hi : s.holder = some i := hheld.mp rfl
    refine ⟨by simp [Stage.holds], fun j hj => ?_⟩
    simp [hi, Ne.symm hj]
  | reads | computes | truncates | writes | stays => exact ⟨hheld, fun _ _ => .rfl⟩

end Transition

variable [DecidableEq ι] {p : Pool ι (Store ι) (Stage α)} {l : Stage α} {first : WalletFile}

/-- A step keeps the lock exclusive and its record true. -/
theorem locked_put {closure : WalletData → Except Exn (α × WalletData)} (hp : Locked p)
    (h : Transition closure i p.shared (p.locals i) l s) : Locked (p.put i l s) := by
  obtain ⟨hself, hothers⟩ := h.holder (hp.held i)
  have hacquired := h.acquired
  constructor
  case held =>
    exact Pool.forall_locals_put (P := fun j (l : Stage α) => l.holds = true ↔ s.holder = some j)
      hself fun j hj => (hp.held j).trans (hothers j hj).symm
  case listed =>
    intro j
    rcases hacquired with ⟨hlist, hentered, -⟩ | ⟨hlist, -, rfl, -, -⟩
    all_goals
      rw [Pool.shared_put, hlist]
      by_cases hj : j = i
    · subst hj
      rw [Pool.locals_put_self, hentered]
      exact hp.listed j
    · rw [Pool.locals_put_of_ne p hj]
      exact hp.listed j
    · subst hj
      simp [Stage.entered, Stage.holds]
    · rw [Pool.locals_put_of_ne p hj, ← hp.listed j]
      simp [hj]
  case once =>
    rcases hacquired with ⟨hlist, -, -⟩ | ⟨hlist, hout, -, -, -⟩
    all_goals rw [Pool.shared_put, hlist]
    · exact hp.once
    · have hnew : i ∉ p.shared.acquired := by simp [hp.listed i, hout]
      exact List.nodup_append'.mpr ⟨hp.once, List.nodup_singleton i, by simpa using hnew⟩
  case last =>
    intro j hj
    rw [Pool.shared_put] at hj ⊢
    rcases hacquired with ⟨hlist, -, hkept⟩ | ⟨hlist, -, -, -, htaken⟩
    all_goals rw [hlist]
    · exact hp.last j (hkept j hj)
    · obtain rfl : i = j := Option.some.inj (htaken.symm.trans hj)
      exact ⟨_, rfl⟩

/-- A step that does not end its call leaves the calls that ended as they are. -/
theorem completed_put (hended : l.isEnded = (p.locals i).isEnded)
    (hlist : s.acquired = p.shared.acquired ∨
      (s.acquired = p.shared.acquired ++ [i] ∧ l.isEnded = false)) :
    completed (p.put i l s) = completed p := by
  have hsame : ∀ j, ((p.put i l s).locals j).isEnded = (p.locals j).isEnded :=
    Pool.forall_locals_put (P := fun j (l : Stage α) => l.isEnded = (p.locals j).isEnded) hended
      fun _ _ => rfl
  unfold completed
  simp only [hsame, Pool.shared_put]
  rcases hlist with hlist | ⟨hlist, hout⟩
  · rw [hlist]
  · rw [hended] at hout
    simp [hlist, hout]

/-- A call that ends was the last to open the lock file. -/
theorem completed_put_ended (hp : Locked p) (hi : p.shared.holder = some i)
    (hlist : s.acquired = p.shared.acquired) (hl : l.isEnded = true) :
    completed (p.put i l s) = completed p ++ [i] := by
  obtain ⟨before, hbefore⟩ := hp.last i hi
  have hout : (p.locals i).isEnded = false := by
    have hholds := (hp.held i).mpr hi
    cases hstage : p.locals i <;> rw [hstage] at hholds <;> first | rfl | cases hholds
  have hnew : i ∉ before := by
    have honce := hp.once
    rw [hbefore] at honce
    exact fun hmem => (List.nodup_append.mp honce).2.2 i hmem i (by simp) rfl
  have hsame : ∀ j ∈ before, ((p.put i l s).locals j).isEnded = (p.locals j).isEnded := by
    intro j hj
    have hne : j ≠ i := fun heq => hnew (heq ▸ hj)
    rw [Pool.locals_put_of_ne p hne]
  unfold completed
  rw [Pool.shared_put, hlist, hbefore, List.filter_append, List.filter_append,
    List.filter_congr hsame]
  simp [hout, hl]

theorem applied_of_ok {closure : WalletData → Except Exn (α × WalletData)} {file : WalletFile}
    {res : α} {data : WalletData} (h : file.readOrCreate >>= closure = .ok (res, data)) :
    applied closure file = .stored data := by
  simp [applied, h]

/-- The answers given before stay those of the calls in their places. -/
theorem answered_put (hp : Inv calls first p) {later : List ι}
    (hcompleted : completed (p.put i l s) = completed p ++ later) {j : ι} {res : α}
    (hj : p.locals j = .ended (.ok res)) : ∃ before after data,
      completed (p.put i l s) = before ++ j :: after ∧
        (serially calls first before).readOrCreate >>= (calls j).closure = .ok (res, data) := by
  obtain ⟨before, after, data, hsplit, hanswer⟩ := hp.answered j res hj
  refine ⟨before, after ++ later, data, ?_, hanswer⟩
  rw [hcompleted, hsplit, List.append_assoc, List.cons_append]

/-- The call that holds the lock after its step got so far. -/
theorem inv_holding (hp : Inv calls first p) (hlocked : Locked (p.put i l s))
    (hcompleted : completed (p.put i l s) = completed p) (hs : s.holder = some i)
    (hl : l.isEnded = false)
    (hhalf : Halfway (calls i).closure (serially calls first (completed p)) s.world.file l) :
    Inv calls first (p.put i l s) where
  toLocked := hlocked
  free := fun hfree => by
    rw [Pool.shared_put, hs] at hfree
    cases hfree
  inside := fun j hj => by
    rw [Pool.shared_put, hs] at hj
    obtain rfl := Option.some.inj hj
    rw [hcompleted, Pool.locals_put_self, Pool.shared_put]
    exact hhalf
  answered := fun j res hj => by
    by_cases hji : j = i
    · subst hji
      rw [Pool.locals_put_self] at hj
      rw [hj] at hl
      cases hl
    · rw [Pool.locals_put_of_ne p hji] at hj
      exact answered_put hp (by rw [hcompleted, List.append_nil]) hj

/-- The call that does not hold the lock after its step left the file as it found it, or as its
closure makes it. -/
theorem inv_outside (hp : Inv calls first p) (hlocked : Locked (p.put i l s)) {later : List ι}
    (hcompleted : completed (p.put i l s) = completed p ++ later) (hl : l.holds = false)
    (hfree : s.holder = none → s.world.file = serially calls first (completed p ++ later))
    (hkept : ∀ j, s.holder = some j →
      p.shared.holder = some j ∧ later = [] ∧ s.world.file = p.shared.world.file)
    (hanswer : ∀ res, l = .ended (.ok res) → later = [i] ∧ ∃ data,
      (serially calls first (completed p)).readOrCreate >>= (calls i).closure = .ok (res, data)) :
    Inv calls first (p.put i l s) where
  toLocked := hlocked
  free := fun hnone => by
    rw [hcompleted]
    exact hfree hnone
  inside := fun j hj => by
    have hji : j ≠ i := by
      rintro rfl
      have hholds := (hlocked.held j).mpr hj
      rw [Pool.locals_put_self, hl] at hholds
      cases hholds
    obtain ⟨hold, rfl, hfile⟩ := hkept j hj
    rw [hcompleted, List.append_nil, Pool.locals_put_of_ne p hji, Pool.shared_put, hfile]
    exact hp.inside j hold
  answered := fun j res hj => by
    by_cases hji : j = i
    · subst hji
      rw [Pool.locals_put_self] at hj
      obtain ⟨rfl, data, hdata⟩ := hanswer res hj
      exact ⟨completed p, [], data, hcompleted, hdata⟩
    · rw [Pool.locals_put_of_ne p hji] at hj
      exact answered_put hp hcompleted hj

/-- A step of a call keeps the invariant. -/
theorem inv_put (hp : Inv calls first p)
    (h : Transition (calls i).closure i p.shared (p.locals i) l s) :
    Inv calls first (p.put i l s) := by
  have hlocked := locked_put hp.toLocked h
  have hheld := hp.held i
  have hinside := hp.inside i
  generalize hstage : p.locals i = l₀ at h hheld hinside
  cases h with
  | waits hl hl' =>
    have hcompleted : completed (p.put i l p.shared) = completed p ++ [] := by
      rw [List.append_nil]
      refine completed_put ?_ (.inl rfl)
      rw [hstage, Stage.isEnded_of_not_entered hl, Stage.isEnded_of_not_entered hl']
    refine inv_outside hp hlocked hcompleted (Stage.holds_of_not_entered hl') ?_ ?_ ?_
    · rw [List.append_nil]
      exact hp.free
    · exact fun j hj => ⟨hj, rfl, rfl⟩
    · rintro res rfl
      cases hl'
  | acquires retries hfree =>
    have hcompleted : completed (p.put i .opened
        { p.shared with holder := some i, acquired := p.shared.acquired ++ [i] }) = completed p :=
      completed_put (by rw [hstage]; rfl) (.inr ⟨rfl, rfl⟩)
    exact inv_holding hp hlocked hcompleted rfl rfl (hp.free hfree)
  | @reads data hread =>
    have hi := hheld.mp rfl
    -- whoever holds the lock has the file to itself, so what it read is what is there
    have hfile := hinside hi
    have hcompleted := completed_put (l := .loaded data) (by rw [hstage]; rfl) (.inl rfl)
    exact inv_holding hp hlocked hcompleted hi rfl ⟨hfile, hfile ▸ hread⟩
  | @computes data data' res hclosure =>
    have hi := hheld.mp rfl
    obtain ⟨hfile, hread⟩ := hinside hi
    have hcompleted := completed_put (l := .computed res data') (by rw [hstage]; rfl) (.inl rfl)
    exact inv_holding hp hlocked hcompleted hi rfl ⟨hfile, bind_eq_ok.mpr ⟨data, hread, hclosure⟩⟩
  | raises e hl =>
    have hcompleted : completed (p.put i (.raised e) p.shared.leak) = completed p ++ [] := by
      rw [List.append_nil]
      refine completed_put ?_ (.inl rfl)
      rcases hl with rfl | ⟨data, rfl⟩ <;> rw [hstage] <;> rfl
    refine inv_outside hp hlocked hcompleted rfl ?_ ?_ ?_
    · -- it held the lock and has not written yet
      intro _
      rw [List.append_nil]
      rcases hl with rfl | ⟨data, rfl⟩
      · exact hinside (hheld.mp rfl)
      · exact (hinside (hheld.mp rfl)).1
    · intro j hj
      cases hj
    · intro res hres
      cases hres
  | truncates res data e =>
    have hi := hheld.mp rfl
    have hcompleted := completed_put (l := .truncated res data) (by rw [hstage]; rfl) (.inl rfl)
    exact inv_holding hp hlocked hcompleted hi rfl (hinside hi).2
  | writes res data =>
    have hi := hheld.mp rfl
    have hcompleted := completed_put (l := .written res) (by rw [hstage]; rfl) (.inl rfl)
    exact inv_holding hp hlocked hcompleted hi rfl ⟨data, rfl, hinside hi⟩
  | @releases res answer hanswer =>
    have hi := hheld.mp rfl
    obtain ⟨data, hfile, hdata⟩ := hinside hi
    refine inv_outside hp hlocked (completed_put_ended hp.toLocked hi rfl rfl) rfl ?_ ?_ ?_
    · intro _
      rw [serially_concat, applied_of_ok hdata]
      exact hfile
    · intro j hj
      cases hj
    · rintro res' hres
      obtain rfl := hanswer res' (Stage.ended.inj hres)
      exact ⟨rfl, data, hdata⟩
  | stays l =>
    have hsame : p.put i (p.locals i) p.shared = p := by simp [Pool.put]
    rw [← hstage, hsame]
    exact hp

/-! ## Runs -/

/-- The finalizer closes the stream that a call left open. -/
def Finalized (s s' : Store ι) : Prop := s' = { s with world.lockHeld := false }

/-- A pool of calls on a directory whose lock file nobody of them has open. -/
def begin (world : World) : Pool ι (Store ι) (Stage α) := ⟨⟨world, none, []⟩, fun _ => .called⟩

omit [DecidableEq ι] in
theorem inv_begin (calls : ι → Call α) (world : World) : Inv calls world.file (begin world) where
  held := fun i => by simp [begin, Stage.holds]
  listed := fun i => by simp [begin, Stage.entered, Stage.holds]
  once := List.nodup_nil
  last := fun i hi => by cases hi
  free := fun _ => rfl
  inside := fun i hi => by cases hi
  answered := fun i res hi => by cases hi

/-- Every interleaving of the calls keeps the invariant. -/
theorem inv_of_run (config : WalletConfig) {calls : ι → Call α} (hwhole : ∀ i, (calls i).Whole)
    {world : World} {history : List (Option ι)} {q : Pool ι (Store ι) (Stage α)}
    (hrun : Run (Pool.Step (Pool.Moves (move config calls) fun _ _ => True) Finalized)
      (begin world) history q) : Inv calls world.file q := by
  refine hrun.invariant (fun p who p' hinv hstep => ?_) (inv_begin calls world)
  cases hstep with
  | @own i _ l s hown =>
    have htransition := transition_move config (hwhole i) (p.locals i) p.shared
    rw [show move config calls i (p.locals i) p.shared = (l, s) from hown.2] at htransition
    exact inv_put hinv htransition
  | outer houter =>
    obtain rfl := houter
    exact { hinv with }

/-- Whatever the interleaving of any number of calls whose reads and writes do not fail: once nobody
holds the lock, the file is what the closures of the calls that ended make of the first file, one
after the other in the order in which they opened the lock file. Each of them is in that order once,
no other call is, and it answers what its closure computed in its place. -/
theorem serializable (config : WalletConfig) {calls : ι → Call α} (hwhole : ∀ i, (calls i).Whole)
    {world : World} {history : List (Option ι)} {q : Pool ι (Store ι) (Stage α)}
    (hrun : Run (Pool.Step (Pool.Moves (move config calls) fun _ _ => True) Finalized)
      (begin world) history q) (hfree : ∀ i, (q.locals i).holds = false) :
    q.shared.world.file = serially calls world.file (completed q) ∧
      (∀ i, i ∈ completed q ↔ ∃ answer, q.locals i = .ended answer) ∧ (completed q).Nodup ∧
      ∀ i res, q.locals i = .ended (.ok res) → ∃ before after data,
        completed q = before ++ i :: after ∧
          (serially calls world.file before).readOrCreate >>= (calls i).closure
            = .ok (res, data) := by
  have hinv := inv_of_run config hwhole hrun
  have hnone : q.shared.holder = none := by
    cases hholder : q.shared.holder with
    | none => rfl
    | some i =>
      have hholds := (hinv.held i).mpr hholder
      rw [hfree i] at hholds
      cases hholds
  refine ⟨hinv.free hnone, fun i => ?_, hinv.once.filter _, hinv.answered⟩
  rw [completed, List.mem_filter, hinv.listed i]
  constructor
  · rintro ⟨-, hended⟩
    cases hstage : q.locals i <;> rw [hstage] at hended <;> first | exact ⟨_, rfl⟩ | cases hended
  · rintro ⟨answer, hanswer⟩
    rw [hanswer]
    exact ⟨rfl, rfl⟩

/-! ### Over pairs -/

/-- Two payments are received at the same time. -/
def pairCalls (second : Bool) : Call (Identifier × UInt32) :=
  ⟨none, WalletReceiver.addReceived pairSender (if second then 6 else 5)⟩

/-- The second call finds the lock file open and waits until the first one is over. -/
def pairSchedule : List Bool :=
  [false, true, false, true] ++ List.replicate 5 false ++ List.replicate 6 true

/-- Both payments are in the file, in the order of the lock. -/
theorem serializable_pairs :
    (Pool.schedule (move ⟨""⟩ pairCalls) (begin ⟨.absent, false, [], []⟩)
        pairSchedule).shared.world.file = serially pairCalls .absent [false, true] ∧
      ((serially pairCalls .absent [false, true]).outputs?.map fun outputs =>
        outputs.values.map (·.value)) = some [5, 6] := by
  have hrun : Run (Pool.Step (Pool.Moves (move ⟨""⟩ pairCalls) fun _ _ => True) Finalized)
      (begin ⟨.absent, false, [], []⟩) (pairSchedule.map some)
      (Pool.schedule (move ⟨""⟩ pairCalls) (begin ⟨.absent, false, [], []⟩) pairSchedule) :=
    Pool.run_schedule (by simp [pairSchedule, Pool.Allowed])
  have hcompleted : completed (Pool.schedule (move ⟨""⟩ pairCalls) (begin ⟨.absent, false, [], []⟩)
      pairSchedule) = [false, true] := by decide +kernel
  have hserial := (serializable ⟨""⟩ (fun _ fault h => by cases h) hrun (by decide +kernel)).1
  rw [hcompleted] at hserial
  exact ⟨hserial, by decide +kernel⟩

end WithWallet

end GrinDotnet
