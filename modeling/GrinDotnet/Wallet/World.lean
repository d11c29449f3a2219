import GrinDotnet.Wallet.WalletData

/-!
# The wallet file

`Read_wallet` and `With_wallet` over a file system that may fail at every step. `With_wallet` has no
`finally`: an exception after the lock file is opened leaves its handle open, and later calls fail
until the handle has been finalized.

Results:
1. `called_withWallet`: everything one call of `With_wallet` can do, with the condition for it.
2. `satisfies_withWallet`: what the closure preserves holds of the file after the call.
3. `withWallet_of_none`: a call without a fault stores what its closure makes of the content.
-/

namespace GrinDotnet

open Outcome

/-- The content of the wallet file. Reading a file that was cut while it was written raises. -/
inductive WalletFile
  | absent
  | stored (data : WalletData)
  | torn (e : Exn)

/-- The receiver's part of a payment: the amount, the blinding sum and the transaction, in hex. -/
structure PartialTx where
  amount : UInt64
  blindSum : String
  tx : String
deriving DecidableEq

/-- What the wallet's operations change: the file, the handle of the lock file, and what has left
the program. -/
structure World where
  file : WalletFile
  /-- A handle of the lock file that nothing will dispose. -/
  lockHeld : Bool
  delivered : List PartialTx
  printed : List PartialTx

/-- A step of `With_wallet` that fails, with the exception or its message. -/
inductive IoFault
  | createDirectory (e : Exn)
  | openLock (e : Exn)
  | read (e : Exn)
  /-- The wallet file cannot be opened for writing. -/
  | create (message : String)
  /-- Writing stops after the file was truncated; reading it back will raise. -/
  | serialize (message : String) (onRead : Exn)
  | dispose
deriving DecidableEq

/-- What the surroundings do to one call of `With_wallet`. -/
structure Attempt where
  /-- A leaked handle is finalized before the last retry. -/
  finalizer : Bool
  fault : Option IoFault
deriving DecidableEq

/-- A call to which nothing happens. -/
def Attempt.calm : Attempt := ⟨false, none⟩

/-- `WalletConfig`, of which the file's place is used. -/
structure WalletConfig where
  dataFileDir : String

/-- `Path.Combine` of a directory and a file name, on Unix: a separator stands between them, unless the
directory is empty or ends in one. -/
def pathCombine (dir file : String) : String :=
  if dir = "" ∨ dir.toList.getLast? = some '/' then dir ++ file else dir ++ "/" ++ file

/-- The path of the wallet file. -/
def WalletConfig.dataFilePath (config : WalletConfig) : String := pathCombine config.dataFileDir "wallet.dat"

/-- A wallet operation: an exception keeps the changes made before it. -/
abbrev WalletM (α : Type) := ExceptT Exn (StateM World) α

namespace WalletM

/-- Run an operation. -/
def exec {α : Type} (x : WalletM α) (w : World) : Except Exn α × World := x w

/-- A computation that does not touch the world. -/
def lift {α : Type} (x : Except Exn α) : WalletM α := fun w => (x, w)

/-- `try … catch`. -/
def orElse {α : Type} (x : WalletM α) (handler : Exn → WalletM α) : WalletM α := fun w =>
  match x.exec w with
  | (.ok a, w') => (.ok a, w')
  | (.error e, w') => (handler e).exec w'

variable {α β : Type}

theorem exec_bind_of_ok {x : WalletM α} {f : α → WalletM β} {w w' : World} {a : α}
    (h : x.exec w = (.ok a, w')) : (x >>= f).exec w = (f a).exec w' := by
  show (x w >>= fun p => ExceptT.bindCont f p.1 p.2 : Id _) = _
  rw [show x w = (.ok a, w') from h]
  rfl

theorem exec_bind_of_error {x : WalletM α} {f : α → WalletM β} {w w' : World} {e : Exn}
    (h : x.exec w = (.error e, w')) : (x >>= f).exec w = (.error e, w') := by
  show (x w >>= fun p => ExceptT.bindCont f p.1 p.2 : Id _) = _
  rw [show x w = (.error e, w') from h]
  rfl

theorem exec_bind (x : WalletM α) (f : α → WalletM β) (w : World) :
    (x >>= f).exec w = match x.exec w with
      | (.ok a, w') => (f a).exec w'
      | (.error e, w') => (.error e, w') := by
  rcases h : x.exec w with ⟨_ | _, w'⟩
  · exact exec_bind_of_error h
  · exact exec_bind_of_ok h

/-- A sequence that answers went through both parts. -/
theorem exec_bind_eq_ok {x : WalletM α} {f : α → WalletM β} {w w' : World} {b : β} :
    (x >>= f).exec w = (.ok b, w') ↔
      ∃ a w₁, x.exec w = (.ok a, w₁) ∧ (f a).exec w₁ = (.ok b, w') := by
  rw [exec_bind]
  rcases x.exec w with ⟨_ | a, w₁⟩
  · simp
  · simp

@[simp] theorem exec_pure (a : α) (w : World) : (pure a : WalletM α).exec w = (.ok a, w) := rfl

@[simp] theorem exec_throw (e : Exn) (w : World) :
    (throw e : WalletM α).exec w = (.error e, w) := rfl

theorem exec_orElse (x : WalletM α) (handler : Exn → WalletM α) (w : World) :
    (orElse x handler).exec w = match x.exec w with
      | (.ok a, w') => (.ok a, w')
      | (.error e, w') => (handler e).exec w' := rfl

@[simp] theorem exec_lift (x : Except Exn α) (w : World) : (lift x).exec w = (x, w) := rfl

end WalletM

/-- The content `Read_or_create` finds. -/
def WalletFile.readOrCreate : WalletFile → Except Exn WalletData
  | .absent => .ok WalletData.new
  | .stored data => .ok data
  | .torn e => .error e

/-- `WalletData.Read_wallet`. -/
def readWallet {α : Type} (fault : Option Exn) (f : WalletData → Except Exn α) : WalletM α := fun w =>
  match fault with
  | some e => (.error e, w)
  | none => (w.file.readOrCreate >>= f, w)

/-- The exception of a lock file that stays locked. -/
def lockFailed : Exn := .wallet .walletData (some "Failed to acquire lock file") []

/-- `With_wallet` after the lock file was opened: read, run the closure, write, dispose. -/
def withLock {α : Type} (config : WalletConfig) (fault : Option IoFault)
    (f : WalletData → Except Exn (α × WalletData)) : WalletM α := fun w =>
  -- there is no `finally`: what raises before the disposal leaves the lock file open
  let leaked := { w with lockHeld := true }
  match fault with
  | some (.read e) => (.error e, leaked)
  | _ =>
    match w.file.readOrCreate >>= f with
    | .error e => (.error e, leaked)
    | .ok (res, wdat) =>
      match fault with
      | some (.create message) =>
        (.error (.wallet .walletData
          (some ("Could not create " ++ config.dataFilePath ++ ": " ++ message)) []), leaked)
      | some (.serialize message onRead) =>
        (.error (.wallet .walletData (some ("Error serializing wallet data: " ++ message)) []),
          -- creating the file has cut it, and the serializer did not come to the end
          { leaked with file := .torn onRead })
      | some .dispose =>
        (.error (.wallet .walletData
          (some "Could not remove wallet lock file. Maybe insufficient rights?") []),
          { w with file := .stored wdat, lockHeld := false })
      | _ => (.ok res, { w with file := .stored wdat, lockHeld := false })

/-- `WalletData.With_wallet`: six attempts at the lock file, of which an `IOException` is retried. -/
def withWallet {α : Type} (config : WalletConfig) (attempt : Attempt)
    (f : WalletData → Except Exn (α × WalletData)) : WalletM α := fun w =>
  match attempt.fault with
  | some (.createDirectory e) => (.error e, w)
  | some (.openLock e) => (.error (if e = .io then lockFailed else e), w)
  | fault =>
    if w.lockHeld ∧ !attempt.finalizer then (.error lockFailed, w)
    else withLock config fault f w

/-! ## What a call does -/

/-- The outputs a wallet file holds; a cut file holds none that can be read. -/
def WalletFile.outputs? (file : WalletFile) : Option (Dictionary String OutputData) :=
  match file.readOrCreate with
  | .ok data => some data.outputs
  | .error _ => none

/-- The record a wallet file lists under a key. -/
def WalletFile.record? (file : WalletFile) (k : String) : Option OutputData :=
  file.outputs?.bind fun outputs => outputs.lookup k

/-- A property of the content, if it can be read. -/
def WalletFile.Satisfies (file : WalletFile) (P : WalletData → Prop) : Prop :=
  ∀ data, file.readOrCreate = .ok data → P data

/-- The file can be read, and the record under the key has the property. -/
def WalletFile.Lists (file : WalletFile) (k : String) (Q : OutputData → Prop) : Prop :=
  ∃ data, file.readOrCreate = .ok data ∧ ∃ r, data.outputs.lookup k = some r ∧ Q r

/-- Nothing in the file was lost: what can be read of it later is what was in it, with every record
in its place or evolved, and possibly more. -/
def WalletFile.Keeps (file file' : WalletFile) : Prop :=
  ∀ data', file'.readOrCreate = .ok data' → ∃ data, file.readOrCreate = .ok data ∧
    data.Keeps data' ∧ (data.WellKeyed → data'.WellKeyed)

namespace WorldLemmas

theorem record?_of_read {file : WalletFile} {data : WalletData} (h : file.readOrCreate = .ok data)
    (k : String) : file.record? k = data.outputs.lookup k := by
  simp [WalletFile.record?, WalletFile.outputs?, h]

@[simp] theorem satisfies_stored {P : WalletData → Prop} {data : WalletData} :
    (WalletFile.stored data).Satisfies P ↔ P data :=
  ⟨fun h => h data rfl, fun h _ hdata => Except.ok.inj hdata ▸ h⟩

@[simp] theorem satisfies_torn {P : WalletData → Prop} {e : Exn} :
    (WalletFile.torn e).Satisfies P := fun _ h => nomatch h

variable {α : Type} {config : WalletConfig} {attempt : Attempt}
  {f : WalletData → Except Exn (α × WalletData)} {w : World}

/-- The call gets as far as opening the lock file. -/
def Acquires (attempt : Attempt) (w : World) : Prop :=
  (∀ e, attempt.fault ≠ some (.createDirectory e)) ∧ (∀ e, attempt.fault ≠ some (.openLock e)) ∧
    (w.lockHeld = true → attempt.finalizer = true)

/-- The call gets as far as truncating the wallet file, if its closure answers. -/
def Truncates (attempt : Attempt) (w : World) : Prop :=
  Acquires attempt w ∧ ∀ fault, attempt.fault = some fault →
    fault = .dispose ∨ ∃ message onRead, fault = .serialize message onRead

theorem withWallet_of_acquires (h : Acquires attempt w) :
    (withWallet config attempt f).exec w = (withLock config attempt.fault f).exec w := by
  obtain ⟨hdir, hopen, hheld⟩ := h
  have hlock : ¬ (w.lockHeld = true ∧ (!attempt.finalizer) = true) := by
    rintro ⟨hh, hf⟩
    rw [hheld hh] at hf
    cases hf
  simp only [WalletM.exec, withWallet]
  cases hfault : attempt.fault with
  | none => exact if_neg hlock
  | some fault =>
    cases fault with
    | createDirectory e => exact absurd hfault (hdir e)
    | openLock e => exact absurd hfault (hopen e)
    | read | create | serialize | dispose => exact if_neg hlock

/-- A call that does not get the lock changes nothing. -/
theorem withWallet_of_not_acquires (h : ¬ Acquires attempt w) :
    ∃ e, (withWallet config attempt f).exec w = (.error e, w) := by
  simp only [WalletM.exec, withWallet]
  split
  · exact ⟨_, rfl⟩
  · exact ⟨_, rfl⟩
  · next hdir hopen =>
    split
    · exact ⟨_, rfl⟩
    · next hlock =>
      refine absurd ⟨fun e he => hdir e he, fun e he => hopen e he, fun hh => ?_⟩ h
      by_contra hf
      exact hlock ⟨hh, by simpa using hf⟩

/-- Reading changes nothing. -/
theorem readWallet_snd (fault : Option Exn) (g : WalletData → Except Exn α) (w : World) :
    ((readWallet fault g).exec w).2 = w := by
  cases fault <;> rfl

theorem readWallet_of_read {fault : Option Exn} {data : WalletData}
    (g : WalletData → Except Exn α) (hfault : fault = none) (hread : w.file.readOrCreate = .ok data) :
    (readWallet fault g).exec w = (g data, w) := by
  subst hfault
  show (w.file.readOrCreate >>= g, w) = _
  rw [hread, ok_bind]

theorem readWallet_eq_ok {fault : Option Exn} {g : WalletData → Except Exn α} {w' : World} {a : α}
    (h : (readWallet fault g).exec w = (.ok a, w')) :
    w' = w ∧ fault = none ∧ ∃ data, w.file.readOrCreate = .ok data ∧ g data = .ok a := by
  cases fault with
  | some e => cases h
  | none =>
    obtain ⟨hread, rfl⟩ := Prod.mk.inj h
    exact ⟨rfl, rfl, bind_eq_ok.mp hread⟩

/-- What one call of `With_wallet` did. -/
inductive Called (attempt : Attempt) (f : WalletData → Except Exn (α × WalletData)) (w : World) :
    Except Exn α × World → Prop
  /-- It did not get the lock. -/
  | refused (e : Exn) : ¬ Acquires attempt w → Called attempt f w (.error e, w)
  /-- It got the lock and raised before it wrote anything. -/
  | raised (e : Exn) : Acquires attempt w →
      (Truncates attempt w → ∀ data, w.file.readOrCreate = .ok data → ∀ r, f data ≠ .ok r) →
      Called attempt f w (.error e, { w with lockHeld := true })
  /-- It truncated the file and did not get to its end. -/
  | tore (e : Exn) {message : String} {onRead : Exn} {data : WalletData} {r : α × WalletData} :
      Truncates attempt w → attempt.fault = some (.serialize message onRead) →
      w.file.readOrCreate = .ok data → f data = .ok r →
      Called attempt f w (.error e, { w with file := .torn onRead, lockHeld := true })
  /-- It stored the wallet and could not remove the lock file. -/
  | undisposed (e : Exn) {data : WalletData} {r : α × WalletData} :
      Truncates attempt w → attempt.fault = some .dispose →
      w.file.readOrCreate = .ok data → f data = .ok r →
      Called attempt f w (.error e, { w with file := .stored r.2, lockHeld := false })
  /-- It stored the wallet. -/
  | done {data : WalletData} {r : α × WalletData} :
      Truncates attempt w → attempt.fault = none →
      w.file.readOrCreate = .ok data → f data = .ok r →
      Called attempt f w (.ok r.1, { w with file := .stored r.2, lockHeld := false })

/-- Every call of `With_wallet` did one of these. -/
theorem called_withWallet (config : WalletConfig) (attempt : Attempt)
    (f : WalletData → Except Exn (α × WalletData)) (w : World) :
    Called attempt f w ((withWallet config attempt f).exec w) := by
  by_cases hacq : Acquires attempt w
  · rw [withWallet_of_acquires hacq]
    rcases hread : w.file.readOrCreate >>= f with e | ⟨res, data'⟩
    · -- the content cannot be read, or the closure raised
      have hclosure : ∀ data, w.file.readOrCreate = .ok data → ∀ r, f data ≠ .ok r := by
        intro data hdata r hr
        rw [hdata, ok_bind, hr] at hread
        cases hread
      have hheld : ∀ e', Called attempt f w (.error e', { w with lockHeld := true }) := fun e' =>
        .raised e' hacq fun _ => hclosure
      rcases hfault : attempt.fault with _ | (_ | _ | _ | _ | _ | _) <;>
        simp only [WalletM.exec, withLock, hread] <;> exact hheld _
    · obtain ⟨data, hdata, hf⟩ := bind_eq_ok.mp hread
      rcases hfault : attempt.fault with _ | fault
      · simp only [WalletM.exec, withLock, hread]
        exact .done ⟨hacq, by simp [hfault]⟩ hfault hdata hf
      · cases fault with
        | createDirectory e => exact absurd hfault (hacq.1 e)
        | openLock e => exact absurd hfault (hacq.2.1 e)
        | read e =>
          simp only [WalletM.exec, withLock]
          exact .raised _ hacq fun h => by simpa [hfault] using h.2 _ hfault
        | create message =>
          simp only [WalletM.exec, withLock, hread]
          exact .raised _ hacq fun h => by simpa [hfault] using h.2 _ hfault
        | serialize message onRead =>
          simp only [WalletM.exec, withLock, hread]
          exact .tore _ ⟨hacq, fun g hg => .inr ⟨_, _, Option.some.inj (hg.symm.trans hfault)⟩⟩
            hfault hdata hf
        | dispose =>
          simp only [WalletM.exec, withLock, hread]
          exact .undisposed _ ⟨hacq, fun g hg => .inl (Option.some.inj (hg.symm.trans hfault))⟩
            hfault hdata hf
  · obtain ⟨e, he⟩ := withWallet_of_not_acquires hacq
    rw [he]
    exact .refused e hacq

/-- A call without a fault stores what its closure makes of the content. -/
theorem withWallet_of_none {data data' : WalletData} {res : α} (hfault : attempt.fault = none)
    (hheld : w.lockHeld = true → attempt.finalizer = true)
    (hread : w.file.readOrCreate = .ok data) (hf : f data = .ok (res, data')) :
    (withWallet config attempt f).exec w
      = (.ok res, { w with file := .stored data', lockHeld := false }) := by
  have hacq : Acquires attempt w := ⟨by simp [hfault], by simp [hfault], hheld⟩
  rw [withWallet_of_acquires hacq, hfault]
  simp [WalletM.exec, withLock, hread, hf]

/-- A call that answers stored what its closure made of the content. -/
theorem withWallet_eq_ok {w' : World} {res : α}
    (h : (withWallet config attempt f).exec w = (.ok res, w')) :
    ∃ data data', w.file.readOrCreate = .ok data ∧ f data = .ok (res, data') ∧
      w' = { w with file := .stored data', lockHeld := false } := by
  have hcalled := called_withWallet config attempt f w
  rw [h] at hcalled
  cases hcalled with
  | done _ _ hread hf => exact ⟨_, _, hread, hf, rfl⟩

theorem withWallet_delivered (config : WalletConfig) (attempt : Attempt)
    (f : WalletData → Except Exn (α × WalletData)) (w : World) :
    ((withWallet config attempt f).exec w).2.delivered = w.delivered ∧
      ((withWallet config attempt f).exec w).2.printed = w.printed := by
  have hcalled := called_withWallet config attempt f w
  generalize (withWallet config attempt f).exec w = r at hcalled
  cases hcalled <;> exact ⟨rfl, rfl⟩

/-- What the closure preserves holds of the file after the call. -/
theorem satisfies_withWallet {P : WalletData → Prop}
    (hf : ∀ data res data', w.file.readOrCreate = .ok data → P data → f data = .ok (res, data') →
      P data') (h : w.file.Satisfies P) :
    ((withWallet config attempt f).exec w).2.file.Satisfies P := by
  have hcalled := called_withWallet config attempt f w
  generalize (withWallet config attempt f).exec w = r at hcalled
  cases hcalled with
  | refused | raised => exact h
  | tore => exact satisfies_torn
  | undisposed e _ _ hread hdata => exact satisfies_stored.mpr (hf _ _ _ hread (h _ hread) hdata)
  | done _ _ hread hdata => exact satisfies_stored.mpr (hf _ _ _ hread (h _ hread) hdata)

/-- What two parts preserve, their sequence preserves. -/
theorem satisfies_bind {β : Type} {P : WalletData → Prop} {x : WalletM α} {g : α → WalletM β}
    (hx : (x.exec w).2.file.Satisfies P)
    (hg : ∀ (a : α) (w' : World), w'.file.Satisfies P → ((g a).exec w').2.file.Satisfies P) :
    ((x >>= g).exec w).2.file.Satisfies P := by
  rw [WalletM.exec_bind]
  rcases hresult : x.exec w with ⟨e | a, w₁⟩ <;> rw [hresult] at hx
  · exact hx
  · exact hg a w₁ hx

theorem keeps_refl (file : WalletFile) : file.Keeps file := fun data hdata =>
  ⟨data, hdata, fun _ o ho => ⟨o, ho, .refl o⟩, id⟩

theorem keeps_trans {file₁ file₂ file₃ : WalletFile} (h : file₁.Keeps file₂)
    (h' : file₂.Keeps file₃) : file₁.Keeps file₃ := by
  intro data₃ hdata₃
  obtain ⟨data₂, hdata₂, hkeeps', hkeyed'⟩ := h' data₃ hdata₃
  obtain ⟨data₁, hdata₁, hkeeps, hkeyed⟩ := h data₂ hdata₂
  refine ⟨data₁, hdata₁, fun k o ho => ?_, fun hd => hkeyed' (hkeyed hd)⟩
  obtain ⟨o₂, ho₂, he⟩ := hkeeps k o ho
  obtain ⟨o₃, ho₃, he'⟩ := hkeeps' k o₂ ho₂
  exact ⟨o₃, ho₃, he.trans he'⟩

/-- What two parts keep, their sequence keeps. -/
theorem keeps_bind {β : Type} {x : WalletM α} {g : α → WalletM β}
    (hx : ∀ w : World, w.file.Keeps (x.exec w).2.file)
    (hg : ∀ (a : α) (w : World), w.file.Keeps ((g a).exec w).2.file) (w : World) :
    w.file.Keeps ((x >>= g).exec w).2.file := by
  have hfirst := hx w
  rw [WalletM.exec_bind]
  rcases hresult : x.exec w with ⟨e | a, w₁⟩ <;> rw [hresult] at hfirst
  · exact hfirst
  · exact keeps_trans hfirst (hg a w₁)

theorem keeps_lift (x : Except Exn α) (w : World) : w.file.Keeps ((WalletM.lift x).exec w).2.file :=
  keeps_refl _

theorem keeps_pure (a : α) (w : World) : w.file.Keeps ((pure a : WalletM α).exec w).2.file :=
  keeps_refl _

/-- A closure that keeps the records keeps the file. -/
theorem keeps_withWallet
    (hf : ∀ data res data', f data = .ok (res, data') →
      data.Keeps data' ∧ (data.WellKeyed → data'.WellKeyed)) :
    w.file.Keeps ((withWallet config attempt f).exec w).2.file := by
  have hcalled := called_withWallet config attempt f w
  generalize (withWallet config attempt f).exec w = r at hcalled
  cases hcalled with
  | refused | raised => exact keeps_refl _
  | tore => exact fun _ h => nomatch h
  | undisposed e _ _ hread hdata =>
    intro data' hdata'
    obtain rfl := Except.ok.inj hdata'
    exact ⟨_, hread, hf _ _ _ hdata⟩
  | done _ _ hread hdata =>
    intro data' hdata'
    obtain rfl := Except.ok.inj hdata'
    exact ⟨_, hread, hf _ _ _ hdata⟩

end WorldLemmas

end GrinDotnet
