import GrinDotnet.Common.HexStrings
import GrinDotnet.Lib.Pool

/-!
# The seed file

`WalletSeed`: the secret that the keys of a wallet are derived from. Every start of the program reads
it from a file, and the first one makes the file. Starts may overlap, and a start may end anywhere,
also in the middle of writing the file.

Results:
1. `alone_begin`: taken one after the other, the steps of a start are `from_file`.
2. `take_of_fromHexChars`: what a file that was cut is read as.
3. `seed_agreed`: the starts of a run in which no two are about to make the file have one seed, and
   which start's random bytes it is made of.
-/

namespace GrinDotnet

open BigEndian Outcome

/-- `WalletSeed`. -/
structure WalletSeed where
  value : Bytes
deriving DecidableEq

namespace WalletSeed

/-- `WalletSeed.from_bytes`. -/
def fromBytes (bytes : Bytes) : WalletSeed :=
  let idx := min 32 bytes.length
  ⟨bytes.take idx⟩

/-- `WalletSeed.from_hex`. -/
def fromHex (hex : String) : Except Exn WalletSeed := do
  let bytes ← GrinDotnet.fromHex hex
  return fromBytes bytes

/-- `WalletSeed.to_hex`. -/
def toHex (self : WalletSeed) : String := GrinDotnet.toHex self.value

/-- `WalletSeed.init_new`, with the bytes of the random generator. -/
def initNew (random : Fixed 32) : WalletSeed := ⟨random.1⟩

/-- What the surroundings do to a start. -/
structure StartIO where
  random : Fixed 32
  /-- The exception of `CreateDirectory` in `from_file`. -/
  directory : Option Exn
  /-- The exception of `CreateDirectory` in `init_file`. -/
  initDirectory : Option Exn
  openRead : Option Exn
  createText : Option Exn
  /-- How many characters get to the file when writing them fails. -/
  write : Option (ℕ × Exn)

/-- The first characters of the text of a seed. -/
def cutText (seed : WalletSeed) (n : ℕ) : String := String.ofList (seed.toHex.toList.take n)

/-- `WalletSeed.init_file`, on the text of the file. -/
def initFile (script : StartIO) (file : Option String) : Except Exn WalletSeed × Option String :=
  match script.initDirectory with
  | some e => (.error e, file)
  | none =>
    if file.isSome then (.error (.exception "Wallet seed file already exists!"), file)
    else
      let seed := initNew script.random
      match script.createText with
      | some e => (.error e, file)
      | none =>
        match script.write with
        | some (n, e) => (.error e, some (seed.cutText n))
        | none => (.ok seed, some seed.toHex)

/-- `WalletSeed.from_file`. -/
def fromFile (script : StartIO) (file : Option String) : Except Exn WalletSeed × Option String :=
  match script.directory with
  | some e => (.error e, file)
  | none =>
    match file with
    | some hex =>
      match script.openRead with
      | some e => (.error e, file)
      | none => (fromHex hex, file)
    | none => initFile script file

/-! ## Starts that overlap -/

/-- The seed file, and whether a start has it open for writing. -/
structure SeedFile where
  text : Option String
  writing : Bool
deriving DecidableEq

/-- Where a start stands. -/
inductive Stage
  | begin
  /-- It found no file. -/
  | absent
  /-- It looked again, and has a new seed. -/
  | creating (seed : WalletSeed)
  /-- It has the empty file open. -/
  | writing (seed : WalletSeed)
  | up (seed : WalletSeed)
  | failed
deriving DecidableEq

/-- The next step of a start. A file that is open for writing cannot be opened. -/
def next (script : StartIO) : Stage → SeedFile → Stage × SeedFile
  | .begin, file =>
    match script.directory with
    | some _ => (.failed, file)
    | none =>
      match file.text with
      | none => (.absent, file)
      | some hex =>
        if file.writing ∨ script.openRead.isSome then (.failed, file)
        else
          match fromHex hex with
          | .ok seed => (.up seed, file)
          | .error _ => (.failed, file)
  | .absent, file =>
    if script.initDirectory.isSome ∨ file.text.isSome then (.failed, file)
    else (.creating (initNew script.random), file)
  | .creating seed, file =>
    if file.writing ∨ script.createText.isSome then (.failed, file)
    else (.writing seed, ⟨some "", true⟩)
  | .writing seed, _ =>
    match script.write with
    | some (n, _) => (.failed, ⟨some (seed.cutText n), false⟩)
    | none => (.up seed, ⟨some seed.toHex, false⟩)
  | .up seed, file => (.up seed, file)
  | .failed, file => (.failed, file)

/-- A start alone: its next step. -/
def alone (script : StartIO) (p : Stage × SeedFile) : Stage × SeedFile := next script p.1 p.2

/-- Where a start ends that answered. -/
def ended (result : Except Exn WalletSeed) : Stage :=
  match result with
  | .ok seed => .up seed
  | .error _ => .failed

/-- Taken one after the other, the steps of a start do what the source does. -/
theorem alone_begin (script : StartIO) (file : Option String) :
    (alone script)^[4] (.begin, ⟨file, false⟩) =
      (ended (fromFile script file).1, ⟨(fromFile script file).2, false⟩) := by
  have hend : ∀ (result : Except Exn WalletSeed) (file : SeedFile) n,
      (alone script)^[n] (ended result, file) = (ended result, file) := by
    intro result file n
    refine Function.iterate_fixed ?_ n
    cases result <;> rfl
  unfold fromFile
  cases hdir : script.directory with
  | some e =>
    have hstep : alone script (.begin, ⟨file, false⟩) = (ended (.error e), ⟨file, false⟩) := by
      simp [alone, next, hdir, ended]
    rw [Function.iterate_succ_apply, hstep, hend]
  | none =>
    cases file with
    | some hex =>
      cases hopen : script.openRead with
      | some e =>
        have hstep : alone script (.begin, ⟨some hex, false⟩) =
            (ended (.error e), ⟨some hex, false⟩) := by
          simp [alone, next, hdir, hopen, ended]
        rw [Function.iterate_succ_apply, hstep, hend]
      | none =>
        have hstep : alone script (.begin, ⟨some hex, false⟩) =
            (ended (fromHex hex), ⟨some hex, false⟩) := by
          simp only [alone, next, hdir, hopen, Option.isSome_none, Bool.false_eq_true, or_self,
            if_false]
          cases fromHex hex <;> rfl
        rw [Function.iterate_succ_apply, hstep, hend]
    | none =>
      have hfirst : alone script (.begin, ⟨none, false⟩) = (.absent, ⟨none, false⟩) := by
        simp [alone, next, hdir]
      rw [Function.iterate_succ_apply, hfirst]
      unfold initFile
      cases hinit : script.initDirectory with
      | some e =>
        have hstep : alone script (.absent, ⟨none, false⟩) = (ended (.error e), ⟨none, false⟩) := by
          simp [alone, next, hinit, ended]
        rw [Function.iterate_succ_apply, hstep, hend]
      | none =>
        have hsecond : alone script (.absent, ⟨none, false⟩) =
            (.creating (initNew script.random), ⟨none, false⟩) := by
          simp [alone, next, hinit]
        rw [Function.iterate_succ_apply, hsecond]
        cases hcreate : script.createText with
        | some e =>
          have hstep : alone script (.creating (initNew script.random), ⟨none, false⟩) =
              (ended (.error e), ⟨none, false⟩) := by
            simp [alone, next, hcreate, ended]
          rw [Function.iterate_succ_apply, hstep, hend]
          rfl
        | none =>
          cases hwrite : script.write with
          | some cut => simp [alone, next, hcreate, hwrite, ended]
          | none => simp [alone, next, hcreate, hwrite, ended]

/-! ## What is read -/

/-- The characters at the front of a text are read as the bytes at its front. -/
theorem take_of_fromHexChars {bytes bytes' : Bytes} {n : ℕ}
    (h : fromHexChars ((bytes.flatMap hexByte).take n) = .ok bytes') :
    bytes' = bytes.take (n / 2) := by
  induction bytes generalizing n bytes' with
  | nil =>
    rw [List.flatMap_nil, List.take_nil] at h
    cases h
    rw [List.take_nil]
  | cons b bytes ih =>
    rw [List.flatMap_cons] at h
    match n, h with
    | 0, h =>
      cases h
      rfl
    | 1, h => cases h
    | n + 2, h =>
      have hpair : (hexByte b ++ bytes.flatMap hexByte).take (n + 2) =
          hexDigit (b.toNat / 16) :: hexDigit (b.toNat % 16) :: (bytes.flatMap hexByte).take n := rfl
      rw [hpair] at h
      obtain ⟨byte, hbyte, tail, htail, rfl⟩ := HexLemmas.fromHexChars_cons_eq_ok.mp h
      rw [HexLemmas.toByte16_hexByte] at hbyte
      obtain rfl := Except.ok.inj hbyte
      rw [ih htail, Nat.add_div_right n (by decide), List.take_succ_cons]

theorem fromBytes_of_length_le {bytes : Bytes} (h : bytes.length ≤ 32) : fromBytes bytes = ⟨bytes⟩ := by
  rw [fromBytes, Nat.min_eq_right h, List.take_length]

/-- The whole text of a seed is read as the seed. -/
theorem fromHex_toHex (random : Fixed 32) : fromHex (initNew random).toHex = .ok (initNew random) := by
  have hlength : (initNew random).value.length ≤ 32 := random.2.le
  rw [fromHex, toHex, GrinDotnet.fromHex_toHex, ok_bind, fromBytes_of_length_le hlength]
  rfl

/-- A cut text is read as the front of the seed. -/
theorem value_of_fromHex_cutText {random : Fixed 32} {n : ℕ} {seed : WalletSeed}
    (h : fromHex ((initNew random).cutText n) = .ok seed) : seed.value = random.1.take (n / 2) := by
  obtain ⟨bytes, hbytes, hseed⟩ := bind_eq_ok.mp h
  rw [GrinDotnet.fromHex, cutText, toHex, GrinDotnet.toHex, String.toList_ofList,
    String.toList_ofList] at hbytes
  obtain rfl := take_of_fromHexChars hbytes
  have hlen : ((initNew random).value.take (n / 2)).length ≤ 32 := by simp [initNew, random.2]
  cases hseed
  rw [fromBytes_of_length_le hlen]
  rfl

/-! ## Steps -/

/-- The start can fail without touching the file. -/
def Stage.Fallible : Stage → Prop
  | .writing _ => False
  | .up _ => False
  | _ => True

/-- What a step of a start can do. -/
inductive Advance (script : StartIO) : Stage → SeedFile → Stage → SeedFile → Prop
  | fail {l : Stage} {file : SeedFile} (hfallible : l.Fallible) : Advance script l file .failed file
  | found {hex : String} {seed : WalletSeed} (hread : fromHex hex = .ok seed) :
      Advance script .begin ⟨some hex, false⟩ (.up seed) ⟨some hex, false⟩
  | missed {writing : Bool} : Advance script .begin ⟨none, writing⟩ .absent ⟨none, writing⟩
  | chosen {writing : Bool} : Advance script .absent ⟨none, writing⟩
      (.creating (initNew script.random)) ⟨none, writing⟩
  | opened {seed : WalletSeed} {text : Option String} :
      Advance script (.creating seed) ⟨text, false⟩ (.writing seed) ⟨some "", true⟩
  | written {seed : WalletSeed} {file : SeedFile} (hwrite : script.write = none) :
      Advance script (.writing seed) file (.up seed) ⟨some seed.toHex, false⟩
  | cut {seed : WalletSeed} {file : SeedFile} {n : ℕ} {e : Exn} (hwrite : script.write = some (n, e)) :
      Advance script (.writing seed) file .failed ⟨some (seed.cutText n), false⟩
  | stay {seed : WalletSeed} {file : SeedFile} : Advance script (.up seed) file (.up seed) file

theorem advance_next (script : StartIO) (l : Stage) (file : SeedFile) :
    Advance script l file (next script l file).1 (next script l file).2 := by
  cases l with
  | begin =>
    obtain ⟨text, writing⟩ := file
    simp only [next]
    cases script.directory with
    | some e => exact .fail trivial
    | none =>
      cases text with
      | none => exact .missed
      | some hex =>
        simp only
        split
        · exact .fail trivial
        · next hopen =>
          obtain rfl : writing = false := by simpa using (not_or.mp hopen).1
          cases hread : fromHex hex with
          | ok seed => exact .found hread
          | error e => exact .fail trivial
  | absent =>
    obtain ⟨text, writing⟩ := file
    simp only [next]
    split
    · exact .fail trivial
    · next hmissing =>
      obtain rfl : text = none := by simpa using (not_or.mp hmissing).2
      exact .chosen
  | creating seed =>
    obtain ⟨text, writing⟩ := file
    simp only [next]
    split
    · exact .fail trivial
    · next hopen =>
      obtain rfl : writing = false := by simpa using (not_or.mp hopen).1
      exact .opened
  | writing seed =>
    simp only [next]
    cases hwrite : script.write with
    | some cut => exact .cut hwrite
    | none => exact .written hwrite
  | up seed => exact .stay
  | failed => exact .fail trivial

/-! ## Runs of starts -/

/-- The start is about to make the file. -/
def Stage.Creating : Stage → Prop
  | .creating _ => True
  | _ => False

/-- A start may make its step, unless it would be about to make the file together with another
start. -/
def Starts {ι : Type*} (scripts : ι → StartIO) (i : ι) (p : Pool ι SeedFile Stage) (l : Stage)
    (file : SeedFile) : Prop :=
  next (scripts i) (p.locals i) p.shared = (l, file) ∧
    (l.Creating → ∀ j, j ≠ i → ¬ (p.locals j).Creating)

/-- Nothing but starts touches the file. -/
def Untouched (_ _ : SeedFile) : Prop := False

/-- The start has neither a seed nor the file. -/
def Stage.Idle (l : Stage) : Prop := l = .begin ∨ l = .absent ∨ l = .failed

/-- Where a start can be while there is no file. -/
def Stage.Before (script : StartIO) (l : Stage) : Prop :=
  l.Idle ∨ l = .creating (initNew script.random)

/-- Where a start can be when the file has its text. -/
def Stage.After (hex : String) (l : Stage) : Prop := l.Idle ∨ ∃ seed, l = .up seed ∧ fromHex hex = .ok seed

/-- The start has made the file with this text: the text of its own random bytes, or the front of it
when writing was cut. -/
inductive Made {ι : Type*} (scripts : ι → StartIO) (p : Pool ι SeedFile Stage) (w : ι) : String → Prop
  | whole (hwrite : (scripts w).write = none)
      (hstage : p.locals w = .up (initNew (scripts w).random)) :
      Made scripts p w (initNew (scripts w).random).toHex
  | cut {n : ℕ} {e : Exn} (hwrite : (scripts w).write = some (n, e)) (hstage : p.locals w = .failed) :
      Made scripts p w ((initNew (scripts w).random).cutText n)

/-- How far the starts are with the file. -/
inductive Progress {ι : Type*} (scripts : ι → StartIO) (before : Option String)
    (p : Pool ι SeedFile Stage) : Prop
  /-- There is no file yet. -/
  | none (hbefore : before = none) (hfile : p.shared = ⟨none, false⟩)
      (hstages : ∀ i, (p.locals i).Before (scripts i))
      (halone : ∀ i j, i ≠ j → (p.locals i).Creating → ¬ (p.locals j).Creating)
  /-- One start has it open. -/
  | writing (hbefore : before = none) (i : ι) (hfile : p.shared = ⟨some "", true⟩)
      (hwriter : p.locals i = .writing (initNew (scripts i).random))
      (hstages : ∀ j, j ≠ i → (p.locals j).Idle)
  /-- The file is what it will be. -/
  | complete (hex : String) (hfile : p.shared = ⟨some hex, false⟩)
      (horigin : before = some hex ∨ before = none ∧ ∃ w, Made scripts p w hex)
      (hstages : ∀ i, (p.locals i).After hex)

variable {ι : Type*} [DecidableEq ι] {scripts : ι → StartIO} {before : Option String}
  {p : Pool ι SeedFile Stage} {i : ι} {l : Stage} {file : SeedFile}

/-- A step while there is no file. -/
theorem progress_of_none (hbefore : before = none) (hstages : ∀ i, (p.locals i).Before (scripts i))
    (halone : ∀ i j, i ≠ j → (p.locals i).Creating → ¬ (p.locals j).Creating)
    (hadvance : Advance (scripts i) (p.locals i) ⟨none, false⟩ l file)
    (hguard : l.Creating → ∀ j, j ≠ i → ¬ (p.locals j).Creating) :
    Progress scripts before (p.put i l file) := by
  have hself := hstages i
  have hsymm : ∀ a b : Stage, (a.Creating → ¬ b.Creating) → b.Creating → ¬ a.Creating :=
    fun _ _ hab hb ha => hab ha hb
  -- as long as there is none, the creators are kept apart
  have hstill : l.Before (scripts i) → file = ⟨none, false⟩ →
      Progress scripts before (p.put i l file) := fun hl hfile' =>
    .none hbefore hfile' (Pool.forall_locals_put (P := fun j => Stage.Before (scripts j)) hl
        fun j _ => hstages j)
      (Pool.pairwise_locals_put hsymm halone fun j hj hcreating => hguard hcreating j hj)
  have halone := fun j hj => halone i j (Ne.symm hj)
  generalize p.locals i = l₀ at hadvance hself halone
  cases hadvance with
  | fail => exact hstill (.inl (.inr (.inr rfl))) rfl
  | missed => exact hstill (.inl (.inr (.inl rfl))) rfl
  | chosen => exact hstill (.inr rfl) rfl
  | @opened seed =>
    obtain rfl : seed = initNew (scripts i).random := by
      simpa [Stage.Before, Stage.Idle] using hself
    refine .writing hbefore i rfl (Pool.locals_put_self ..) fun j hj => ?_
    rw [Pool.locals_put_of_ne p hj]
    rcases hstages j with hidle | hcreating
    · exact hidle
    · refine absurd ?_ (halone j hj trivial)
      rw [hcreating]
      trivial
  | written | cut | stay => simp [Stage.Before, Stage.Idle] at hself

/-- A step while a start has the file open. -/
theorem progress_of_writing {w : ι} (hbefore : before = none)
    (hwriter : p.locals w = .writing (initNew (scripts w).random))
    (hstages : ∀ j, j ≠ w → (p.locals j).Idle)
    (hadvance : Advance (scripts i) (p.locals i) ⟨some "", true⟩ l file) :
    Progress scripts before (p.put i l file) := by
  by_cases hi : i = w
  · subst hi
    rw [hwriter] at hadvance
    have hdone : ∀ hex l, Made scripts (p.put i l ⟨some hex, false⟩) i hex → l.After hex →
        Progress scripts before (p.put i l ⟨some hex, false⟩) := fun hex l hmade hl =>
      .complete hex rfl (.inr ⟨hbefore, i, hmade⟩)
        (Pool.forall_locals_put (P := fun _ => Stage.After hex) hl fun j hj => .inl (hstages j hj))
    cases hadvance with
    | fail hfallible => exact hfallible.elim
    | written hwrite =>
      exact hdone _ _ (.whole hwrite (Pool.locals_put_self ..)) (.inr ⟨_, rfl, fromHex_toHex _⟩)
    | cut hwrite =>
      exact hdone _ _ (.cut hwrite (Pool.locals_put_self ..)) (.inl (.inr (.inr rfl)))
  · -- the others cannot open it
    have hself := hstages i hi
    generalize p.locals i = l₀ at hadvance hself
    cases hadvance with
    | fail =>
      refine .writing hbefore w rfl ?_ fun j hj => ?_
      · rw [Pool.locals_put_of_ne p (Ne.symm hi), hwriter]
      · by_cases hji : j = i
        · subst hji
          rw [Pool.locals_put_self]
          exact .inr (.inr rfl)
        · rw [Pool.locals_put_of_ne p hji]
          exact hstages j hj
    | written | cut | stay => simp [Stage.Idle] at hself

/-- The start that has made the file does not go anywhere else. -/
theorem Made.put {w : ι} {hex : String} (hmade : Made scripts p w hex) {before after : SeedFile}
    (hadvance : Advance (scripts i) (p.locals i) before l after) :
    Made scripts (p.put i l after) w hex := by
  have hstage : (p.locals w = .failed ∨ ∃ seed, p.locals w = .up seed) →
      (p.put i l after).locals w = p.locals w := by
    intro hended
    by_cases hi : w = i
    · subst hi
      rw [Pool.locals_put_self]
      generalize p.locals w = l₀ at hadvance hended
      cases hadvance with
      | fail hfallible =>
        rcases hended with rfl | ⟨seed, rfl⟩
        · rfl
        · exact hfallible.elim
      | stay => rfl
      | found | missed | chosen | opened | written | cut => simp at hended
    · exact Pool.locals_put_of_ne p hi ..
  cases hmade with
  | whole hwrite hup => exact .whole hwrite ((hstage (.inr ⟨_, hup⟩)).trans hup)
  | cut hwrite hfailed => exact .cut hwrite ((hstage (.inl hfailed)).trans hfailed)

/-- A step when the file has its text. -/
theorem progress_of_complete {hex : String}
    (horigin : before = some hex ∨ before = none ∧ ∃ w, Made scripts p w hex)
    (hstages : ∀ i, (p.locals i).After hex)
    (hadvance : Advance (scripts i) (p.locals i) ⟨some hex, false⟩ l file) :
    Progress scripts before (p.put i l file) := by
  have hself := hstages i
  have hmade : ∀ w, Made scripts p w hex → Made scripts (p.put i l file) w hex :=
    fun w hw => hw.put hadvance
  have hstill : l.After hex → file = ⟨some hex, false⟩ → Progress scripts before (p.put i l file) :=
    fun hl hfile => .complete hex hfile (horigin.imp_right fun ⟨hnone, w, hw⟩ => ⟨hnone, w, hmade w hw⟩)
      (Pool.forall_locals_put (P := fun _ => Stage.After hex) hl fun j _ => hstages j)
  generalize p.locals i = l₀ at hadvance hself
  cases hadvance with
  | fail => exact hstill (.inl (.inr (.inr rfl))) rfl
  | found hread => exact hstill (.inr ⟨_, rfl, hread⟩) rfl
  | opened | written | cut => simp [Stage.After, Stage.Idle] at hself
  | stay => exact hstill hself rfl

theorem progress_of_starts (hp : Progress scripts before p) (h : Starts scripts i p l file) :
    Progress scripts before (p.put i l file) := by
  obtain ⟨hnext, hguard⟩ := h
  have hadvance := advance_next (scripts i) (p.locals i) p.shared
  rw [hnext] at hadvance
  cases hp with
  | none hbefore hfile hstages halone =>
    rw [hfile] at hadvance
    exact progress_of_none hbefore hstages halone hadvance hguard
  | writing hbefore w hfile hwriter hstages =>
    rw [hfile] at hadvance
    exact progress_of_writing hbefore hwriter hstages hadvance
  | complete hex hfile horigin hstages =>
    rw [hfile] at hadvance
    exact progress_of_complete horigin hstages hadvance

theorem progress_of_run {p q : Pool ι SeedFile Stage} {history : List (Option ι)}
    (h : Run (Pool.Step (Starts scripts) Untouched) p history q) (hbegin : ∀ i, p.locals i = .begin)
    (hclosed : p.shared.writing = false) : Progress scripts p.shared.text q := by
  have hidle : ∀ i, (p.locals i).Idle := fun i => .inl (hbegin i)
  have hfile : p.shared = ⟨p.shared.text, false⟩ := by rw [← hclosed]
  have hfirst : Progress scripts p.shared.text p := by
    cases htext : p.shared.text with
    | none =>
      refine .none rfl (by rw [hfile, htext]) (fun i => .inl (hidle i)) fun i _ _ hcreating => ?_
      rw [hbegin i] at hcreating
      exact hcreating.elim
    | some hex => exact .complete hex (by rw [hfile, htext]) (.inl rfl) fun i => .inl (hidle i)
  refine h.invariant (fun r who r' hr hstep => ?_) hfirst
  cases hstep with
  | own hstarts => exact progress_of_starts hr hstarts
  | outer houter => exact houter.elim

omit [DecidableEq ι] in
/-- A file that is there stays as it is. -/
theorem Progress.text_eq {hex : String} (hp : Progress scripts (some hex) p) :
    p.shared.text = some hex := by
  cases hp with
  | none hbefore | writing hbefore => cases hbefore
  | complete hex' hfile horigin =>
    rcases horigin with hsame | ⟨hnone, -⟩
    · rw [hfile, hsame]
    · cases hnone

/-- A start that is up has the seed of the file. -/
theorem complete_of_up (hp : Progress scripts before p) {seed : WalletSeed}
    (hup : p.locals i = .up seed) :
    ∃ hex, p.shared = ⟨some hex, false⟩ ∧ fromHex hex = .ok seed ∧
      (∀ j, (p.locals j).After hex) ∧
      (before = some hex ∨ before = none ∧ ∃ w, Made scripts p w hex) := by
  cases hp with
  | none _ _ hstages =>
    have hbefore := hstages i
    simp [hup, Stage.Before, Stage.Idle] at hbefore
  | writing _ w _ hwriter hstages =>
    by_cases hi : i = w
    · subst hi
      rw [hup] at hwriter
      cases hwriter
    · have hidle := hstages i hi
      simp [hup, Stage.Idle] at hidle
  | complete hex hfile horigin hstages =>
    have hafter := hstages i
    obtain ⟨seed', hseed, hread⟩ : ∃ seed', Stage.up seed = .up seed' ∧ fromHex hex = .ok seed' := by
      simpa [hup, Stage.After, Stage.Idle] using hafter
    cases hseed
    exact ⟨hex, hfile, hread, hstages, horigin⟩

/-- The seed is made of the random bytes of this start: of all of them, and the start is up with it, or
of those that had reached the file when writing it failed. -/
def SeedOf (scripts : ι → StartIO) (p : Pool ι SeedFile Stage) (w : ι) (seed : WalletSeed) : Prop :=
  ((scripts w).write = none ∧ p.locals w = .up seed ∧ seed = initNew (scripts w).random) ∨
    ∃ n e, (scripts w).write = some (n, e) ∧ p.locals w = .failed ∧
      seed.value = (initNew (scripts w).random).value.take (n / 2)

omit [DecidableEq ι] in
theorem Made.seedOf {w : ι} {hex : String} (hmade : Made scripts p w hex) {seed : WalletSeed}
    (hread : fromHex hex = .ok seed) : SeedOf scripts p w seed := by
  cases hmade with
  | whole hwrite hup =>
    rw [fromHex_toHex] at hread
    obtain rfl := Except.ok.inj hread
    exact .inl ⟨hwrite, hup, rfl⟩
  | cut hwrite hfailed => exact .inr ⟨_, _, hwrite, hfailed, value_of_fromHex_cutText hread⟩

/-- In a run in which no two starts are about to make the file, a file that is there stays, and all
starts that come up have the seed that every later start reads. The seed of a new file is made of the
random bytes of the start that made the file. -/
theorem seed_agreed {p q : Pool ι SeedFile Stage} {history : List (Option ι)}
    (h : Run (Pool.Step (Starts scripts) Untouched) p history q) (hbegin : ∀ i, p.locals i = .begin)
    (hclosed : p.shared.writing = false) :
    (∀ hex, p.shared.text = some hex → q.shared.text = some hex) ∧
    ∀ i seed, q.locals i = .up seed →
      (∀ j seed', q.locals j = .up seed' → seed' = seed) ∧
      (∀ script : StartIO, script.directory = none → script.openRead = none →
        fromFile script q.shared.text = (.ok seed, q.shared.text)) ∧
      (p.shared.text = none → ∃ w, SeedOf scripts q w seed) := by
  have hprogress := progress_of_run h hbegin hclosed
  refine ⟨fun hex hbefore => (hbefore ▸ hprogress).text_eq, fun i seed hup => ?_⟩
  obtain ⟨hex, hfile, hread, hstages, horigin⟩ := complete_of_up hprogress hup
  have htext : q.shared.text = some hex := by rw [hfile]
  refine ⟨fun j seed' hup' => ?_, fun script hdir hopen => ?_, fun hnone => ?_⟩
  · have hafter := hstages j
    obtain ⟨seed₂, hseed, hread'⟩ : ∃ s, Stage.up seed' = .up s ∧ fromHex hex = .ok s := by
      simpa [hup', Stage.After, Stage.Idle] using hafter
    cases hseed
    exact Except.ok.inj (hread'.symm.trans hread)
  · simp only [fromFile, hdir, htext, hopen, hread]
  · rcases horigin with hsame | ⟨-, w, hmade⟩
    · rw [hnone] at hsame
      cases hsame
    · exact ⟨w, hmade.seedOf hread⟩

/-! ### Two starts -/

/-- Two starts of a wallet that has no seed. -/
def pairStarts : Pool Bool SeedFile Stage := ⟨⟨none, false⟩, fun _ => .begin⟩

/-- One of them draws zeroes and one draws ones, and nothing goes wrong. -/
def pairScripts (i : Bool) : StartIO :=
  ⟨if i then ⟨List.replicate 32 1, rfl⟩ else zeros 32, none, none, none, none, none⟩

/-- The start that draws zeroes makes the file while the other one looks for it, and the other one
reads it when it is there. -/
theorem seed_agreed_pairs : ∃ (q : Pool Bool SeedFile Stage) (history : List (Option Bool)),
    Run (Pool.Step (Starts pairScripts) Untouched) pairStarts history q ∧
      q.locals true = .up (initNew (zeros 32)) ∧
      (∀ j seed, q.locals j = .up seed → seed = initNew (zeros 32)) ∧
      ∃ w, SeedOf pairScripts q w (initNew (zeros 32)) := by
  have hown : ∀ {p q : Pool Bool SeedFile Stage} {history : List (Option Bool)} (i l file),
      Run (Pool.Step (Starts pairScripts) Untouched) p history q →
      next (pairScripts i) (q.locals i) q.shared = (l, file) →
      (∀ j, j ≠ i → ¬ (q.locals j).Creating) →
      Run (Pool.Step (Starts pairScripts) Untouched) p (history ++ [some i]) (q.put i l file) :=
    fun i l file hrun hnext hguard => hrun.snoc (.own ⟨hnext, fun _ => hguard⟩)
  have habsent := hown false _ _ (.nil pairStarts) rfl fun j _ => id
  have hcreating := hown false _ _ habsent rfl (by rintro (_ | _) hj; exacts [absurd rfl hj, id])
  have hwriting := hown false _ _ hcreating rfl (by rintro (_ | _) hj; exacts [absurd rfl hj, id])
  have hup := hown false _ _ hwriting rfl (by rintro (_ | _) hj; exacts [absurd rfl hj, id])
  have hread : next (pairScripts true) .begin ⟨some (initNew (zeros 32)).toHex, false⟩ =
      (.up (initNew (zeros 32)), ⟨some (initNew (zeros 32)).toHex, false⟩) := by
    simp [next, pairScripts, fromHex_toHex]
  have hboth := hown true _ _ hup hread (by rintro (_ | _) hj; exacts [id, absurd rfl hj])
  obtain ⟨hagreed, -, hmade⟩ := (seed_agreed hboth (fun _ => rfl) rfl).2 true _ rfl
  exact ⟨_, _, hboth, rfl, hagreed, hmade rfl⟩

end WalletSeed

end GrinDotnet
