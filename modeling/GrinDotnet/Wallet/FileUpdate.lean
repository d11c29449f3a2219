import GrinDotnet.Lib.BigEndian
import GrinDotnet.Wallet.World

/-!
# The bytes of the wallet file

`With_wallet` again, with the file as bytes: `Write` truncates the only copy and writes the new one
in pieces, so there is a stretch in which an exception leaves neither the old content nor the new.

Results:
1. `withWallet_update`: what the file holds after a call, for every point at which it may fail.
2. `allOrNothing_iff`: the calls after which the file holds what it should.
3. `exists_withWallet`: on bytes the call does what it does on parsed files.
-/

namespace GrinDotnet

open BigEndian Outcome

/-- `JsonSerializer` on wallets: the pieces in which it writes one, and what it reads a text as. -/
structure JsonSerializer where
  serialize : WalletData → List Bytes
  deserialize : Bytes → Except Exn WalletData

/-- The text of a wallet. -/
def JsonSerializer.text (S : JsonSerializer) (data : WalletData) : Bytes := (S.serialize data).flatten

/-- The wallet file and the handle of the lock file. -/
structure Disk where
  file : Option Bytes
  lockHeld : Bool
deriving DecidableEq

/-- An exception that `Write` catches: an `IOException` or another one. -/
structure WriteFailure where
  io : Bool
  message : String
deriving DecidableEq

/-- What `Write` raises for it. -/
def WriteFailure.exn (config : WalletConfig) (self : WriteFailure) : Exn :=
  if self.io then
    .wallet .walletData (some ("Could not create " ++ config.dataFilePath ++ ": " ++ self.message)) []
  else .wallet .walletData (some ("Error serializing wallet data: " ++ self.message)) []

/-- A step of `With_wallet` that fails. -/
inductive DiskFault
  | createDirectory (e : Exn)
  | openLock (e : Exn)
  | read (e : Exn)
  /-- The wallet file cannot be opened for writing. -/
  | create (failure : WriteFailure)
  /-- The piece with this index cannot be written. -/
  | write (index : ℕ) (failure : WriteFailure)
  | dispose
deriving DecidableEq

/-- What the surroundings do to one call. -/
structure DiskAttempt where
  finalizer : Bool
  fault : Option DiskFault
deriving DecidableEq

/-- The exception of a lock file that cannot be disposed of. -/
def disposeFailed : Exn :=
  .wallet .walletData (some "Could not remove wallet lock file. Maybe insufficient rights?") []

/-- Writing pieces behind what is written already, up to the one that fails. -/
def appendPieces : List Bytes → Option (ℕ × WriteFailure) → Bytes → Option WriteFailure × Bytes
  | [], _, written => (none, written)
  | _ :: _, some (0, failure), written => (some failure, written)
  | piece :: pieces, some (index + 1, failure), written =>
    appendPieces pieces (some (index, failure)) (written ++ piece)
  | piece :: pieces, none, written => appendPieces pieces none (written ++ piece)

namespace Disk

variable {α : Type}

/-- `WalletData.Read_or_create`. -/
def readOrCreate (S : JsonSerializer) (self : Disk) : Except Exn WalletData :=
  match self.file with
  | none => .ok WalletData.new
  | some text => S.deserialize text

/-- `WalletData.Write`: the exception, if there is one, and the file. -/
def write (S : JsonSerializer) (fault : Option DiskFault) (data : WalletData) (self : Disk) :
    Option WriteFailure × Option Bytes :=
  match fault with
  | some (.create failure) => (some failure, self.file)
  -- the file is created empty, so what is written so far is all there is
  | some (.write index failure) =>
    let (failed, text) := appendPieces (S.serialize data) (some (index, failure)) []
    (failed, some text)
  | _ =>
    let (failed, text) := appendPieces (S.serialize data) none []
    (failed, some text)

/-- `With_wallet` after the lock file was opened. -/
def withLock (S : JsonSerializer) (config : WalletConfig) (fault : Option DiskFault)
    (f : WalletData → Except Exn (α × WalletData)) (self : Disk) : Except Exn α × Disk :=
  match fault with
  | some (.read e) => (.error e, { self with lockHeld := true })
  | _ =>
    match self.readOrCreate S >>= f with
    | .error e => (.error e, { self with lockHeld := true })
    | .ok (res, wdat) =>
      match self.write S fault wdat with
      | (some failure, file) => (.error (failure.exn config), ⟨file, true⟩)
      | (none, file) =>
        if fault = some .dispose then (.error disposeFailed, ⟨file, false⟩)
        else (.ok res, ⟨file, false⟩)

/-- `WalletData.With_wallet`. -/
def withWallet (S : JsonSerializer) (config : WalletConfig) (attempt : DiskAttempt)
    (f : WalletData → Except Exn (α × WalletData)) (self : Disk) : Except Exn α × Disk :=
  match attempt.fault with
  | some (.createDirectory e) => (.error e, self)
  | some (.openLock e) => (.error (if e = .io then lockFailed else e), self)
  | fault =>
    if self.lockHeld ∧ !attempt.finalizer then (.error lockFailed, self)
    else self.withLock S config fault f

/-- The call truncates the wallet file, to write what its closure answers. -/
structure Truncates (S : JsonSerializer) (attempt : DiskAttempt)
    (f : WalletData → Except Exn (α × WalletData)) (disk : Disk) (res : α) (wdat : WalletData) :
    Prop where
  directory : ∀ e, attempt.fault ≠ some (.createDirectory e)
  opened : ∀ e, attempt.fault ≠ some (.openLock e)
  acquired : disk.lockHeld = true → attempt.finalizer = true
  read : ∀ e, attempt.fault ≠ some (.read e)
  answered : (disk.readOrCreate S >>= f) = .ok (res, wdat)
  created : ∀ failure, attempt.fault ≠ some (.create failure)

/-! ## Writing -/

theorem appendPieces_none (pieces : List Bytes) (written : Bytes) :
    appendPieces pieces none written = (none, written ++ pieces.flatten) := by
  induction pieces generalizing written with
  | nil => simp [appendPieces]
  | cons piece pieces ih => rw [appendPieces, ih, List.flatten_cons, List.append_assoc]

theorem appendPieces_of_lt {pieces : List Bytes} {index : ℕ} (h : index < pieces.length)
    (failure : WriteFailure) (written : Bytes) :
    appendPieces pieces (some (index, failure)) written =
      (some failure, written ++ (pieces.take index).flatten) := by
  induction pieces generalizing index written with
  | nil => exact absurd h (Nat.not_lt_zero _)
  | cons piece pieces ih =>
    cases index with
    | zero => simp [appendPieces]
    | succ index =>
      rw [appendPieces, ih (Nat.lt_of_succ_lt_succ h), List.take_succ_cons, List.flatten_cons,
        List.append_assoc]

/-- A piece that does not exist cannot fail. -/
theorem appendPieces_of_le {pieces : List Bytes} {index : ℕ} (h : pieces.length ≤ index)
    (failure : WriteFailure) (written : Bytes) :
    appendPieces pieces (some (index, failure)) written = (none, written ++ pieces.flatten) := by
  induction pieces generalizing index written with
  | nil => simp [appendPieces]
  | cons piece pieces ih =>
    cases index with
    | zero => exact absurd h (Nat.not_succ_le_zero _)
    | succ index =>
      rw [appendPieces, ih (Nat.le_of_succ_le_succ h), List.flatten_cons, List.append_assoc]

/-! ## One call -/

section Call

variable {S : JsonSerializer} (config : WalletConfig) {attempt : DiskAttempt}
  {f : WalletData → Except Exn (α × WalletData)} {disk : Disk} {res : α} {wdat : WalletData}

theorem withWallet_of_truncates (h : Truncates S attempt f disk res wdat) :
    disk.withWallet S config attempt f =
      match disk.write S attempt.fault wdat with
      | (some failure, file) => (.error (failure.exn config), ⟨file, true⟩)
      | (none, file) =>
        if attempt.fault = some .dispose then (.error disposeFailed, ⟨file, false⟩)
        else (.ok res, ⟨file, false⟩) := by
  have hlock : ¬ (disk.lockHeld = true ∧ (!attempt.finalizer) = true) := by
    rintro ⟨hheld, hfinalizer⟩
    rw [h.acquired hheld] at hfinalizer
    cases hfinalizer
  have hanswer := h.answered
  unfold withWallet
  cases hfault : attempt.fault with
  | none =>
    simp only [if_neg hlock, withLock, hanswer]
  | some fault =>
    cases fault with
    | createDirectory e => exact absurd hfault (h.directory e)
    | openLock e => exact absurd hfault (h.opened e)
    | read e => exact absurd hfault (h.read e)
    | create | write | dispose => simp only [if_neg hlock, withLock, hanswer]

/-- A call that does not truncate the file raises and leaves it as it is. -/
theorem withWallet_of_not_truncates (h : ¬ ∃ res wdat, Truncates S attempt f disk res wdat) :
    ∃ e held, disk.withWallet S config attempt f = (.error e, ⟨disk.file, held⟩) ∧
      (held = disk.lockHeld ∨ held = true) := by
  unfold withWallet
  split
  · exact ⟨_, _, rfl, .inl rfl⟩
  · exact ⟨_, _, rfl, .inl rfl⟩
  · next hdirectory hopened =>
    split
    · exact ⟨_, _, rfl, .inl rfl⟩
    · next hlock =>
      unfold withLock
      split
      · exact ⟨_, _, rfl, .inr rfl⟩
      · next hread =>
        split
        · exact ⟨_, _, rfl, .inr rfl⟩
        · next res wdat hanswer =>
          by_cases hcreate : ∃ failure, attempt.fault = some (.create failure)
          · obtain ⟨failure, hfault⟩ := hcreate
            rw [hfault]
            exact ⟨_, _, rfl, .inr rfl⟩
          · -- nothing is left that could keep it from the file
            refine absurd ⟨res, wdat, ?_⟩ h
            exact {
              directory := fun e he => hdirectory e he
              opened := fun e he => hopened e he
              acquired := fun hheld => by
                by_contra hfinalizer
                exact hlock ⟨hheld, by simpa using hfinalizer⟩
              read := fun e he => hread e he
              answered := hanswer
              created := fun failure he => hcreate ⟨failure, he⟩ }

/-- Which piece of a text fails, if one does. -/
def FailsAt (S : JsonSerializer) (attempt : DiskAttempt) (wdat : WalletData) (index : ℕ)
    (failure : WriteFailure) : Prop :=
  attempt.fault = some (.write index failure) ∧ index < (S.serialize wdat).length

/-- What a call that truncates the file makes of it. -/
theorem withWallet_truncated (h : Truncates S attempt f disk res wdat) :
    (∃ index failure, FailsAt S attempt wdat index failure ∧
      disk.withWallet S config attempt f =
        (.error (failure.exn config), ⟨some ((S.serialize wdat).take index).flatten, true⟩)) ∨
    ((∀ index failure, ¬ FailsAt S attempt wdat index failure) ∧
      disk.withWallet S config attempt f =
        (if attempt.fault = some .dispose then .error disposeFailed else .ok res,
          ⟨some (S.text wdat), false⟩)) := by
  rw [withWallet_of_truncates config h]
  have hwhole : appendPieces (S.serialize wdat) none [] = (none, S.text wdat) :=
    appendPieces_none _ _
  cases hfault : attempt.fault with
  | none =>
    refine .inr ⟨fun index failure hfails => (nomatch hfault.symm.trans hfails.1), ?_⟩
    simp only [write, hwhole, reduceCtorEq, if_false]
  | some fault =>
    cases fault with
    | createDirectory e => exact absurd hfault (h.directory e)
    | openLock e => exact absurd hfault (h.opened e)
    | read e => exact absurd hfault (h.read e)
    | create failure => exact absurd hfault (h.created failure)
    | dispose =>
      refine .inr ⟨fun index failure hfails => (nomatch hfault.symm.trans hfails.1), ?_⟩
      simp only [write, hwhole, if_true]
    | write index failure =>
      rcases Nat.lt_or_ge index (S.serialize wdat).length with hlt | hge
      · refine .inl ⟨index, failure, ⟨hfault, hlt⟩, ?_⟩
        simp only [write, appendPieces_of_lt hlt, List.nil_append]
      · refine .inr ⟨fun index' failure' hfails => ?_, ?_⟩
        · obtain ⟨hfault', hlt⟩ := hfails
          rw [hfault] at hfault'
          cases hfault'
          exact Nat.not_lt.mpr hge hlt
        · have hlate : appendPieces (S.serialize wdat) (some (index, failure)) [] =
              (none, S.text wdat) := appendPieces_of_le hge failure []
          simp only [write, hlate, Option.some.injEq, reduceCtorEq, if_false]

/-- What the wallet file holds after a call: the answer of the closure if the call returns; if it
raises, what was there before as long as the file has not been truncated, and then the pieces before
the one that failed, or the whole answer where only the lock file could not be disposed of. -/
theorem withWallet_update (S : JsonSerializer) (config : WalletConfig) (attempt : DiskAttempt)
    (f : WalletData → Except Exn (α × WalletData)) (disk : Disk) :
    (∀ res, (disk.withWallet S config attempt f).1 = .ok res →
      ∃ wdat, (disk.readOrCreate S >>= f) = .ok (res, wdat) ∧
        (disk.withWallet S config attempt f).2.file = some (S.text wdat)) ∧
    (∀ e, (disk.withWallet S config attempt f).1 = .error e →
      (¬ ∃ res wdat, Truncates S attempt f disk res wdat) →
      (disk.withWallet S config attempt f).2.file = disk.file) ∧
    (∀ e res wdat, (disk.withWallet S config attempt f).1 = .error e →
      Truncates S attempt f disk res wdat →
      (∃ index failure, FailsAt S attempt wdat index failure ∧
        (disk.withWallet S config attempt f).2.file =
          some ((S.serialize wdat).take index).flatten) ∨
      (attempt.fault = some .dispose ∧
        (disk.withWallet S config attempt f).2.file = some (S.text wdat))) := by
  refine ⟨fun res hok => ?_, fun e _ hkept => ?_, fun e res wdat herror htruncates => ?_⟩
  · by_cases htruncates : ∃ res wdat, Truncates S attempt f disk res wdat
    · obtain ⟨res', wdat, htruncates⟩ := htruncates
      rcases withWallet_truncated config htruncates with
        ⟨index, failure, -, hrun⟩ | ⟨-, hrun⟩
      · rw [hrun] at hok
        cases hok
      · rw [hrun] at hok ⊢
        dsimp only at hok
        split at hok
        · cases hok
        · obtain rfl := Except.ok.inj hok
          exact ⟨wdat, htruncates.answered, rfl⟩
    · obtain ⟨e, held, hrun, -⟩ := withWallet_of_not_truncates config htruncates
      rw [hrun] at hok
      cases hok
  · obtain ⟨e, held, hrun, -⟩ := withWallet_of_not_truncates config hkept
    rw [hrun]
  · rcases withWallet_truncated config htruncates with
      ⟨index, failure, hfails, hrun⟩ | ⟨-, hrun⟩
    · exact .inl ⟨index, failure, hfails, by rw [hrun]⟩
    · rw [hrun] at herror ⊢
      dsimp only at herror
      split at herror
      · next hdispose => exact .inr ⟨hdispose, rfl⟩
      · cases herror

/-- After the call the file holds the answer of the closure if the call returned, and what was there
before if it raised. -/
def AllOrNothing (S : JsonSerializer) (config : WalletConfig) (attempt : DiskAttempt)
    (f : WalletData → Except Exn (α × WalletData)) (disk : Disk) : Prop :=
  (∀ e, (disk.withWallet S config attempt f).1 = .error e →
    (disk.withWallet S config attempt f).2.file = disk.file) ∧
  ∀ res, (disk.withWallet S config attempt f).1 = .ok res →
    ∃ wdat, (disk.readOrCreate S >>= f) = .ok (res, wdat) ∧
      (disk.withWallet S config attempt f).2.file = some (S.text wdat)

/-- All or nothing, unless the file was truncated and what the failure leaves is something else. -/
theorem allOrNothing_iff : AllOrNothing S config attempt f disk ↔
    ∀ res wdat, Truncates S attempt f disk res wdat →
      (∀ index failure, FailsAt S attempt wdat index failure →
        disk.file = some ((S.serialize wdat).take index).flatten) ∧
      (attempt.fault = some .dispose → disk.file = some (S.text wdat)) := by
  obtain ⟨hreturns, hkept, htorn⟩ := withWallet_update S config attempt f disk
  constructor
  · rintro ⟨hraises, -⟩ res wdat htruncates
    rcases withWallet_truncated config htruncates with
      ⟨index, failure, hfails, hrun⟩ | ⟨hnone, hrun⟩
    · rw [hrun] at hraises
      have hfile := hraises _ rfl
      refine ⟨fun index' failure' hfails' => ?_, fun hdispose => ?_⟩
      · obtain ⟨rfl, -⟩ : index = index' ∧ failure = failure' := by
          simpa using hfails.1.symm.trans hfails'.1
        exact hfile.symm
      · exact nomatch hfails.1.symm.trans hdispose
    · refine ⟨fun index failure hfails => absurd hfails (hnone index failure), fun hdispose => ?_⟩
      rw [hrun, if_pos hdispose] at hraises
      exact (hraises _ rfl).symm
  · intro h
    refine ⟨fun e herror => ?_, hreturns⟩
    by_cases htruncates : ∃ res wdat, Truncates S attempt f disk res wdat
    · obtain ⟨res, wdat, htruncates⟩ := htruncates
      obtain ⟨hpieces, hdisposed⟩ := h res wdat htruncates
      rcases htorn e res wdat herror htruncates with ⟨index, failure, hfails, hfile⟩ | ⟨hd, hfile⟩
      · rw [hfile, hpieces index failure hfails]
      · rw [hfile, hdisposed hd]
    · exact hkept e herror htruncates

/-! ## Bytes and parsed files -/

/-- What the bytes of the wallet file are read as. -/
def parsed (S : JsonSerializer) (disk : Disk) : WalletFile :=
  match disk.file with
  | none => .absent
  | some text =>
    match S.deserialize text with
    | .ok data => .stored data
    | .error e => .torn e

theorem readOrCreate_parsed (S : JsonSerializer) (disk : Disk) :
    (disk.parsed S).readOrCreate = disk.readOrCreate S := by
  unfold parsed readOrCreate
  cases disk.file with
  | none => rfl
  | some text =>
    dsimp only
    cases S.deserialize text <;> rfl

/-- The text of a wallet is read back, and raises when pieces of it are missing. -/
structure ReadsBack (S : JsonSerializer) (data : WalletData) : Prop where
  text : S.deserialize (S.text data) = .ok data
  cut : ∀ index < (S.serialize data).length,
    ∃ e, S.deserialize ((S.serialize data).take index).flatten = .error e

/-- Whatever a call does to the bytes, one with some fault does to the parsed file. -/
theorem exists_withWallet
    (hS : ∀ res wdat, (disk.readOrCreate S >>= f) = .ok (res, wdat) → ReadsBack S wdat) {w : World}
    (hfile : w.file = disk.parsed S) (hheld : w.lockHeld = disk.lockHeld) : ∃ attempt' : Attempt,
      ((GrinDotnet.withWallet config attempt' f).exec w).1.toOption =
        (disk.withWallet S config attempt f).1.toOption ∧
      ((GrinDotnet.withWallet config attempt' f).exec w).2 =
        { w with
          file := (disk.withWallet S config attempt f).2.parsed S
          lockHeld := (disk.withWallet S config attempt f).2.lockHeld } := by
  by_cases htruncates : ∃ res wdat, Truncates S attempt f disk res wdat
  · obtain ⟨res, wdat, htruncates⟩ := htruncates
    have hanswer : (w.file.readOrCreate >>= f) = .ok (res, wdat) := by
      rw [hfile, readOrCreate_parsed]
      exact htruncates.answered
    have hlock : ∀ fault : Option IoFault,
        ¬ (w.lockHeld = true ∧ (!(Attempt.mk attempt.finalizer fault).finalizer) = true) := by
      rintro fault ⟨hh, hfinalizer⟩
      rw [htruncates.acquired (hheld ▸ hh)] at hfinalizer
      cases hfinalizer
    have hreads := hS res wdat htruncates.answered
    have hstored : (⟨some (S.text wdat), false⟩ : Disk).parsed S = .stored wdat := by
      simp only [parsed, hreads.text]
    rcases withWallet_truncated config htruncates with
      ⟨index, failure, hfails, hrun⟩ | ⟨-, hrun⟩
    · obtain ⟨e, he⟩ := hreads.cut index hfails.2
      have htorn : (⟨some ((S.serialize wdat).take index).flatten, true⟩ : Disk).parsed S =
          .torn e := by
        simp only [parsed, he]
      refine ⟨⟨attempt.finalizer, some (.serialize failure.message e)⟩, ?_⟩
      rw [hrun, htorn]
      simp only [WalletM.exec, GrinDotnet.withWallet, if_neg (hlock _), GrinDotnet.withLock, hanswer]
      exact ⟨rfl, trivial⟩
    · rw [hrun, hstored]
      by_cases hdispose : attempt.fault = some .dispose
      · refine ⟨⟨attempt.finalizer, some .dispose⟩, ?_⟩
        simp only [WalletM.exec, GrinDotnet.withWallet, if_neg (hlock _), GrinDotnet.withLock,
          hanswer, if_pos hdispose]
        exact ⟨rfl, trivial⟩
      · refine ⟨⟨attempt.finalizer, none⟩, ?_⟩
        simp only [WalletM.exec, GrinDotnet.withWallet, if_neg (hlock _), GrinDotnet.withLock,
          hanswer, if_neg hdispose]
        exact ⟨trivial, trivial⟩
  · obtain ⟨e, held, hrun, hleft⟩ := withWallet_of_not_truncates config htruncates
    have hparsed : (⟨disk.file, held⟩ : Disk).parsed S = w.file := hfile.symm
    rw [hrun, hparsed]
    rcases hleft with rfl | rfl
    · refine ⟨⟨false, some (.createDirectory e)⟩, rfl, ?_⟩
      rw [← hheld]
      rfl
    · refine ⟨⟨true, some (.read e)⟩, ?_⟩
      simp [WalletM.exec, GrinDotnet.withWallet, GrinDotnet.withLock, Except.toOption]

end Call

/-- A text, byte by byte. -/
def ascii (text : String) : Bytes := text.toList.map fun c => UInt8.ofNat c.toNat

/-- The serializer on wallets without outputs, in three pieces. -/
def emptySerializer : JsonSerializer where
  serialize _ := [ascii "\x7b\n  \"Outputs\": ", ascii "\x7b\x7d", ascii "\n\x7d"]
  deserialize text :=
    if text = ascii "\x7b\n  \"Outputs\": \x7b\x7d\n\x7d" then .ok WalletData.new
    else .error .nullReference

/-- Every piece of the text is needed. -/
example : ReadsBack emptySerializer WalletData.new where
  text := rfl
  cut
    | 0, _ => ⟨_, rfl⟩
    | 1, _ => ⟨_, rfl⟩
    | 2, _ => ⟨_, rfl⟩

/-- A call whose disk is full at the second piece: of the text that was there the first is left. -/
theorem update_torn :
    let disk : Disk := ⟨some (ascii "\x7b\n  \"Outputs\": \x7b\x7d\n\x7d"), false⟩
    let run := disk.withWallet emptySerializer ⟨"wallet"⟩ ⟨false, some (.write 1 ⟨true, "No space"⟩)⟩
      fun walletData => .ok ((), walletData)
    run.1 = .error (.wallet .walletData (some "Could not create wallet/wallet.dat: No space") []) ∧
      run.2.file = some (ascii "\x7b\n  \"Outputs\": ") ∧ run.2.file ≠ disk.file ∧
      run.2.readOrCreate emptySerializer = .error .nullReference := by
  refine ⟨?_, ?_, ?_, ?_⟩
  · rfl
  · rfl
  · decide +kernel
  · rfl

end Disk

end GrinDotnet
