import GrinDotnet.Wallet.SendSteps

/-!
# Payments that were delivered

One catch-all around the delivery and the locking of the coins decides about the rollback, so a
failure of the locking rolls back a payment that the receiver has.

Results:
1. `settled_iff`: when a delivered payment keeps its change and has its coins locked.
2. `rollback_after_delivery`: a payment that was delivered and rolled back.
-/

namespace GrinDotnet

open BigEndian Outcome WorldLemmas WalletLemmas

variable {env : Env}

namespace Sender

/-- There is a record under the key. -/
def Holds (file : WalletFile) (k : String) : Prop := file.Lists k fun _ => True

/-! ## After the delivery -/

/-- The locking goes through: it gets the lock, writes to its end, and finds every coin. -/
def Locks (script : SendScript) (w : World) (coins : List OutputData) : Prop :=
  Truncates script.lock w ∧ script.lock.fault = none ∧ ∀ c ∈ coins, Holds w.file c.keyId

/-- The locking cuts the wallet file. -/
def Tears (script : SendScript) (w : World) (coins : List OutputData) : Prop :=
  Truncates script.lock w ∧ (∃ message onRead, script.lock.fault = some (.serialize message onRead)) ∧
    ∀ c ∈ coins, Holds w.file c.keyId

/-- The locking raises between opening the lock file and writing, which leaves the handle open. -/
def Leaks (script : SendScript) (w : World) (coins : List OutputData) : Prop :=
  Acquires script.lock w ∧ ¬ (Truncates script.lock w ∧ ∀ c ∈ coins, Holds w.file c.keyId)

/-- The rollback gets as far as writing. -/
def RollsBack (script : SendScript) (w : World) (coins : List OutputData) : Prop :=
  Truncates script.rollback w ∧ (Leaks script w coins → script.rollback.finalizer = true)

/-- The records of the coins have their values, or are locked already. -/
def Lockable (file : WalletFile) (coins : List OutputData) : Prop :=
  ∀ c ∈ coins, file.Lists c.keyId fun r =>
    r.status = .locked ∨ ∃ c' ∈ coins, c'.keyId = c.keyId ∧ c'.value = r.value

/-- What a delivered payment has to leave behind: the change, and when the call returns also the
locked coins. Nothing puts a deleted change back, so the change is there at the end only if it was
there all along. -/
def Settled (partialTx : PartialTx) (coins : List OutputData) (changeKey : Identifier)
    (r : Except Exn Unit × World) : Prop :=
  Holds r.2.file changeKey.hexValue ∧
    (r.1 = .ok () → partialTx ∈ r.2.delivered ∧
      ∀ c ∈ coins, r.2.file.Lists c.keyId fun o => o.status = .locked)

theorem holds_of_keeps {file file' : WalletFile} {k : String} (hkeeps : file.Keeps file')
    (hread : ∃ data, file'.readOrCreate = .ok data) (h : Holds file k) : Holds file' k := by
  obtain ⟨data', hdata'⟩ := hread
  obtain ⟨data, hdata, hrecords, -⟩ := hkeeps data' hdata'
  obtain ⟨data₁, hdata₁, r, hr, -⟩ := h
  obtain rfl := Except.ok.inj (hdata.symm.trans hdata₁)
  obtain ⟨r', hr', -⟩ := hrecords k r hr
  exact ⟨data', hdata', r', hr', trivial⟩

theorem rollbackWallet_called (config : WalletConfig) (attempt : Attempt) (changeKey : Identifier)
    (w : World) : Called attempt (fun data => .ok ((), data.deleteOutput changeKey)) w
      ((rollbackWallet config attempt changeKey).exec w) :=
  called_withWallet config attempt _ w

/-- A rollback that gets as far as writing loses the change, any other one raises. -/
theorem rollback_spec (config : WalletConfig) (attempt : Attempt) {changeKey : Identifier}
    {w : World} (h : Holds w.file changeKey.hexValue) :
    (Truncates attempt w ∧
      ¬ Holds ((rollbackWallet config attempt changeKey).exec w).2.file changeKey.hexValue) ∨
    (¬ Truncates attempt w ∧
      Holds ((rollbackWallet config attempt changeKey).exec w).2.file changeKey.hexValue ∧
      ∃ e, ((rollbackWallet config attempt changeKey).exec w).1 = .error e) := by
  have hdeleted : ∀ data : WalletData,
      ¬ Holds (.stored (data.deleteOutput changeKey)) changeKey.hexValue := by
    rintro data ⟨d, hd, r, hr, -⟩
    obtain rfl := Except.ok.inj hd
    rw [lookup_deleteOutput, if_pos rfl] at hr
    cases hr
  have hcalled := rollbackWallet_called config attempt changeKey w
  generalize (rollbackWallet config attempt changeKey).exec w = r at hcalled
  obtain ⟨data₀, hdata₀, -⟩ := id h
  cases hcalled with
  | refused e hacq => exact .inr ⟨fun ht => hacq ht.1, h, e, rfl⟩
  | raised e _ hnot => exact .inr ⟨fun ht => hnot ht data₀ hdata₀ _ rfl, h, e, rfl⟩
  | tore e ht =>
    refine .inl ⟨ht, ?_⟩
    rintro ⟨d, hd, -⟩
    cases hd
  | undisposed e ht _ _ hf | done ht _ _ hf =>
    obtain rfl := Except.ok.inj hf
    exact .inl ⟨ht, hdeleted _⟩

/-- The lock of a leaked handle is only got after a finalizer ran. -/
theorem truncates_leaked {attempt : Attempt} {w : World} (hfree : w.lockHeld = false) :
    Truncates attempt { w with lockHeld := true } ↔
      Truncates attempt w ∧ attempt.finalizer = true := by
  constructor
  · rintro ⟨⟨hdir, hopen, hheld⟩, hfault⟩
    exact ⟨⟨⟨hdir, hopen, by simp [hfree]⟩, hfault⟩, hheld rfl⟩
  · rintro ⟨⟨⟨hdir, hopen, -⟩, hfault⟩, hfinal⟩
    exact ⟨⟨hdir, hopen, fun _ => hfinal⟩, hfault⟩

/-- The locking closure answers when every coin is on record. -/
theorem exists_lockCoins_iff {file : WalletFile} {data : WalletData} {coins : List OutputData}
    (hread : file.readOrCreate = .ok data) :
    (∃ data', data.lockCoins coins = .ok data') ↔ ∀ c ∈ coins, Holds file c.keyId := by
  rw [exists_lockCoins]
  refine forall₂_congr fun c _ => ⟨fun ⟨r, hr⟩ => ⟨data, hread, r, hr, trivial⟩, ?_⟩
  rintro ⟨d, hd, r, hr, -⟩
  obtain rfl := Except.ok.inj (hread.symm.trans hd)
  exact ⟨r, hr⟩

/-- After the locking, the coins are locked when they could be. -/
theorem locked_iff {file : WalletFile} {data data' : WalletData} {coins : List OutputData}
    (hread : file.readOrCreate = .ok data) (hlock : data.lockCoins coins = .ok data') :
    (∀ c ∈ coins, (WalletFile.stored data').Lists c.keyId fun o => o.status = .locked) ↔
      Lockable file coins := by
  refine forall₂_congr fun c hc => ?_
  have hafter := lookup_lockCoins hlock c.keyId
  constructor
  · rintro ⟨d, hd, o, ho, hstatus⟩
    obtain rfl := Except.ok.inj hd
    rw [ho] at hafter
    obtain ⟨r, hr, rfl⟩ := Option.map_eq_some_iff.mp hafter.symm
    refine ⟨data, hread, r, hr, ?_⟩
    split at hstatus
    · next hcoin => exact .inr hcoin
    · exact .inl hstatus
  · rintro ⟨d, hd, r, hr, hcan⟩
    obtain rfl := Except.ok.inj (hread.symm.trans hd)
    rw [hr, Option.map_some] at hafter
    refine ⟨data', rfl, _, hafter, ?_⟩
    split
    · rfl
    · next hcoin => exact hcan.resolve_right hcoin

theorem updateWallet_called (config : WalletConfig) (attempt : Attempt) (coins : List OutputData)
    (w : World) : Called attempt (fun data => do
      let data ← data.lockCoins coins
      return ((), data)) w ((updateWallet config attempt coins).exec w) :=
  called_withWallet config attempt _ w

/-- The part of `issue_send_tx` after the receiver accepted, as it runs for `http`. -/
def afterDelivery (script : SendScript) (config : WalletConfig) (coins : List OutputData)
    (changeKey : Identifier) : WalletM Unit :=
  WalletM.orElse (updateWallet config script.lock coins) fun _ =>
    rollbackWallet config script.rollback changeKey

theorem settled_rollback_iff {config : WalletConfig} {attempt : Attempt}
    {coins : List OutputData} {changeKey : Identifier} {partialTx : PartialTx} {w : World}
    (hchange : Holds w.file changeKey.hexValue) :
    Settled partialTx coins changeKey ((rollbackWallet config attempt changeKey).exec w) ↔
      ¬ Truncates attempt w := by
  rcases rollback_spec config attempt hchange with ⟨ht, hlost⟩ | ⟨ht, hkept, e, he⟩
  · exact ⟨fun h => absurd h.1 hlost, fun h => absurd ht h⟩
  · refine ⟨fun _ => ht, fun _ => ⟨hkept, fun hok => ?_⟩⟩
    rw [he] at hok
    cases hok

theorem not_settled_torn {config : WalletConfig} {attempt : Attempt} {coins : List OutputData}
    {changeKey : Identifier} {partialTx : PartialTx} {w : World} {onRead : Exn}
    (htorn : w.file = .torn onRead) :
    ¬ Settled partialTx coins changeKey ((rollbackWallet config attempt changeKey).exec w) := by
  have hunread : ∀ data, w.file.readOrCreate ≠ .ok data := by simp [htorn, WalletFile.readOrCreate]
  have hcalled := rollbackWallet_called config attempt changeKey w
  generalize (rollbackWallet config attempt changeKey).exec w = r at hcalled
  cases hcalled with
  | refused | raised =>
    rintro ⟨⟨data, hdata, -⟩, -⟩
    exact hunread data hdata
  | tore _ _ _ hread | undisposed _ _ _ hread | done _ _ hread => exact absurd hread (hunread _)

/-- What the locking and the rollback make of a delivered payment. -/
theorem settled_afterDelivery_iff {script : SendScript} {config : WalletConfig}
    {coins : List OutputData} {changeKey : Identifier} {partialTx : PartialTx} {w : World}
    (hfree : w.lockHeld = false) (hsent : partialTx ∈ w.delivered)
    (hchange : Holds w.file changeKey.hexValue) :
    Settled partialTx coins changeKey ((afterDelivery script config coins changeKey).exec w) ↔
      (Locks script w coins ∧ Lockable w.file coins) ∨
        (¬ Locks script w coins ∧ ¬ Tears script w coins ∧ ¬ RollsBack script w coins) := by
  obtain ⟨data, hdata, -⟩ := id hchange
  have hrecords : (∃ data', data.lockCoins coins = .ok data') ↔ ∀ c ∈ coins, Holds w.file c.keyId :=
    exists_lockCoins_iff hdata
  -- the closure answers exactly when every coin is on record
  have hclosure : ∀ {data₁ : WalletData} {r : Unit × WalletData}, w.file.readOrCreate = .ok data₁ →
      (do let d ← data₁.lockCoins coins; return ((), d)) = .ok r →
      data₁.lockCoins coins = .ok r.2 ∧ ∀ c ∈ coins, Holds w.file c.keyId := by
    intro data₁ r hread hf
    obtain ⟨d, hd, hr⟩ := bind_eq_ok.mp hf
    cases hr
    exact ⟨hd, (exists_lockCoins_iff hread).mp ⟨d, hd⟩⟩
  have hcalled := updateWallet_called config script.lock coins w
  have hkeeps := SenderLemmas.keeps_updateWallet config script.lock coins w
  rw [afterDelivery, WalletM.exec_orElse]
  generalize (updateWallet config script.lock coins).exec w = r at hcalled hkeeps
  cases hcalled with
  | refused e hacq =>
    -- nothing has changed, so it is the rollback that counts
    have hlocks : ¬ Locks script w coins := fun h => hacq h.1.1
    have htears : ¬ Tears script w coins := fun h => hacq h.1.1
    have hleaks : ¬ Leaks script w coins := fun h => hacq h.1
    simp only [settled_rollback_iff hchange, RollsBack]
    simp [hlocks, htears, hleaks]
  | raised e hacq hnot =>
    -- the lock file is left open, so the rollback needs a finalizer that closes it
    have hmissing : ¬ (Truncates script.lock w ∧ ∀ c ∈ coins, Holds w.file c.keyId) := by
      rintro ⟨ht, hall⟩
      obtain ⟨data', hdata'⟩ := hrecords.mpr hall
      exact hnot ht data hdata ((), data') (by simp [hdata'])
    have hlocks : ¬ Locks script w coins := fun h => hmissing ⟨h.1, h.2.2⟩
    have htears : ¬ Tears script w coins := fun h => hmissing ⟨h.1, h.2.2⟩
    have hleaks : Leaks script w coins := ⟨hacq, hmissing⟩
    have hheld : Holds ({ w with lockHeld := true } : World).file changeKey.hexValue := hchange
    simp only [settled_rollback_iff hheld, truncates_leaked hfree, RollsBack]
    simp [hlocks, htears, hleaks]
  | @tore e message onRead data₁ r ht hfault hread hf =>
    -- a cut file lists nothing, whatever the rollback does
    have htears : Tears script w coins := ⟨ht, ⟨message, onRead, hfault⟩, (hclosure hread hf).2⟩
    have hlocks : ¬ Locks script w coins := by
      rintro ⟨-, hnone, -⟩
      rw [hfault] at hnone
      cases hnone
    have htorn : ({ w with file := .torn onRead, lockHeld := true } : World).file = .torn onRead := rfl
    refine ⟨fun hsettled => absurd hsettled (not_settled_torn htorn), ?_⟩
    rintro (⟨hdone, -⟩ | ⟨-, hwhole, -⟩)
    · exact absurd hdone hlocks
    · exact absurd htears hwhole
  | @undisposed e data₁ r ht hfault hread hf =>
    -- the coins are locked on disk, but the exception still runs the rollback
    obtain ⟨-, hall⟩ := hclosure hread hf
    have hlocks : ¬ Locks script w coins := by
      rintro ⟨-, hnone, -⟩
      rw [hfault] at hnone
      cases hnone
    have htears : ¬ Tears script w coins := by
      rintro ⟨-, ⟨message, onRead, hcut⟩, -⟩
      rw [hfault] at hcut
      cases hcut
    have hleaks : ¬ Leaks script w coins := fun h => h.2 ⟨ht, hall⟩
    have hkept : Holds (.stored r.2) changeKey.hexValue := holds_of_keeps hkeeps ⟨_, rfl⟩ hchange
    have hsame : Truncates script.rollback
        { w with file := .stored r.2, lockHeld := false } ↔ Truncates script.rollback w := by
      simp [Truncates, Acquires, hfree]
    have hheld : Holds ({ w with file := .stored r.2, lockHeld := false } : World).file
        changeKey.hexValue := hkept
    simp only [settled_rollback_iff hheld, hsame, RollsBack]
    simp [hlocks, htears, hleaks]
  | @done data₁ r ht hfault hread hf =>
    obtain ⟨hlock, hall⟩ := hclosure hread hf
    have hlocks : Locks script w coins := ⟨ht, hfault, hall⟩
    have hkept : Holds (.stored r.2) changeKey.hexValue := holds_of_keeps hkeeps ⟨_, rfl⟩ hchange
    have hlocked := locked_iff hread hlock
    constructor
    · rintro ⟨-, hsettled⟩
      exact .inl ⟨hlocks, hlocked.mp (hsettled rfl).2⟩
    · rintro (⟨-, hcan⟩ | ⟨hnot, -⟩)
      · exact ⟨hkept, fun _ => ⟨hsent, hlocked.mpr hcan⟩⟩
      · exact absurd hlocks hnot

/-- A send to a receiver that accepted: everything before the delivery went through, and so did the
delivery. The last world is the one before the delivery. -/
structure Accepted (script : SendScript) (config : WalletConfig) (kc : Keychain env)
    (args : SendArgs) (w : World) (partialTx : PartialTx) (coins : List OutputData)
    (changeKey : Identifier) (w₂ : World) : Prop where
  not_stdout : args.dest ≠ "stdout"
  http : env.stringStartsWith args.dest "http" = true
  delivery : script.delivery = none
  built : ∃ height tx blind, script.tip = .ok height ∧ partialTx = buildPartialTx env args.amount blind tx ∧
    (do
      let _ ← Checker.refreshOutputs script.refresh config kc
      buildSendTx script config kc args height : WalletM _).exec w
      = (.ok (tx, blind, coins, changeKey), w₂)

/-- A delivered payment is settled exactly when the locking goes through and its coins can be locked,
or when both the locking and the rollback fail before they write. -/
theorem settled_iff {script : SendScript} {config : WalletConfig} {kc : Keychain env}
    {args : SendArgs} {w w₂ : World} {partialTx : PartialTx} {coins : List OutputData}
    {changeKey : Identifier} (h : Accepted script config kc args w partialTx coins changeKey w₂) :
    Settled partialTx coins changeKey ((issueSendTx script config kc args).exec w) ↔
      (Locks script w₂ coins ∧ Lockable w₂.file coins) ∨
        (¬ Locks script w₂ coins ∧ ¬ Tears script w₂ coins ∧ ¬ RollsBack script w₂ coins) := by
  obtain ⟨height, tx, blind, htip, rfl, hbuilt⟩ := h.built
  obtain ⟨b, w₁, hrefresh, hbuild⟩ := WalletM.exec_bind_eq_ok.mp hbuilt
  obtain ⟨change, inputs, data, data', hplan, rfl⟩ := buildSendTx_eq_ok htip hbuild
  have hrun : (issueSendTx script config kc args).exec w
      = (afterDelivery script config coins changeKey).exec
          { w₁ with
            file := .stored data'
            lockHeld := false
            delivered := w₁.delivered ++ [buildPartialTx env args.amount blind tx] } := by
    have hlift : (WalletM.lift script.tip).exec w₁ = (.ok height, w₁) := by
      rw [WalletM.exec_lift, htip]
    have hsend : ∀ v : World,
        (sendPartialTx script.delivery (buildPartialTx env args.amount blind tx)).exec v
          = (.ok (), { v with
              delivered := v.delivered ++ [buildPartialTx env args.amount blind tx] }) := by
      rw [h.delivery]
      exact fun _ => rfl
    rw [issueSendTx, WalletM.exec_bind_of_ok hrefresh, WalletM.exec_bind_of_ok hlift,
      WalletM.exec_bind_of_ok hbuild]
    simp only [dispatch, if_neg h.not_stdout, if_pos h.http]
    rw [WalletM.exec_orElse, WalletM.exec_bind_of_ok (hsend _)]
    rfl
  obtain ⟨o, ho⟩ := hplan.lookup_after
  rw [hrun, settled_afterDelivery_iff rfl (by simp) ⟨data', rfl, o, ho, trivial⟩]
  rfl

/-! ### Over pairs -/

/-- A send over pairs to a receiver that accepts is built, whatever happens after the delivery. -/
theorem accepted_pairs (lock rollback : Attempt) :
    ∃ partialTx coins w₂, Accepted { pairScript with lock, rollback } ⟨""⟩ pairSender
      (pairArgs "http://receiver") pairWorld partialTx coins ⟨ofNat 10 9⟩ w₂ := by
  have hbuilt : (match ((do
      let _ ← Checker.refreshOutputs pairScript.refresh ⟨""⟩ pairSender
      buildSendTx pairScript ⟨""⟩ pairSender (pairArgs "http://receiver") 3 : WalletM _).exec
        pairWorld).1 with
    | .ok (_, _, _, changeKey) => decide (changeKey = ⟨ofNat 10 9⟩)
    | .error _ => false) = true := by decide +kernel
  rcases hexec : (do
      let _ ← Checker.refreshOutputs pairScript.refresh ⟨""⟩ pairSender
      buildSendTx pairScript ⟨""⟩ pairSender (pairArgs "http://receiver") 3 : WalletM _).exec
        pairWorld with ⟨e | ⟨tx, blind, coins, changeKey⟩, w₂⟩ <;> rw [hexec] at hbuilt
  · cases hbuilt
  · obtain rfl := of_decide_eq_true hbuilt
    exact ⟨_, coins, w₂, by decide, by decide, rfl, 3, tx, blind, rfl, rfl, hexec⟩

/-- The condition at a send to which nothing happens. -/
theorem settled_iff_pairs :
    ∃ partialTx coins w₂,
      Accepted pairScript ⟨""⟩ pairSender (pairArgs "http://receiver") pairWorld partialTx coins
        ⟨ofNat 10 9⟩ w₂ ∧
      (Settled partialTx coins ⟨ofNat 10 9⟩
          ((issueSendTx pairScript ⟨""⟩ pairSender (pairArgs "http://receiver")).exec pairWorld) ↔
        (Locks pairScript w₂ coins ∧ Lockable w₂.file coins) ∨
          (¬ Locks pairScript w₂ coins ∧ ¬ Tears pairScript w₂ coins ∧
            ¬ RollsBack pairScript w₂ coins)) := by
  obtain ⟨partialTx, coins, w₂, h⟩ := accepted_pairs Attempt.calm Attempt.calm
  exact ⟨partialTx, coins, w₂, h, settled_iff h⟩

/-- The lock file of another process keeps the locking out after the delivery, and the rollback
deletes the change of a payment that the receiver has. The call returns as if all was well. -/
theorem rollback_after_delivery :
    ∃ partialTx coins w₂,
      Accepted { pairScript with lock := ⟨false, some (.openLock .io)⟩, rollback := Attempt.calm } ⟨""⟩
        pairSender (pairArgs "http://receiver") pairWorld partialTx coins ⟨ofNat 10 9⟩ w₂ ∧
      ¬ Settled partialTx coins ⟨ofNat 10 9⟩
        ((issueSendTx { pairScript with
            lock := ⟨false, some (.openLock .io)⟩, rollback := Attempt.calm } ⟨""⟩ pairSender
          (pairArgs "http://receiver")).exec pairWorld) ∧
      ((issueSendTx { pairScript with
            lock := ⟨false, some (.openLock .io)⟩, rollback := Attempt.calm } ⟨""⟩ pairSender
          (pairArgs "http://receiver")).exec pairWorld).1 = .ok () := by
  obtain ⟨partialTx, coins, w₂, h⟩ :=
    accepted_pairs ⟨false, some (.openLock .io)⟩ Attempt.calm
  have hend : ((issueSendTx { pairScript with
            lock := ⟨false, some (.openLock .io)⟩, rollback := Attempt.calm } ⟨""⟩ pairSender
          (pairArgs "http://receiver")).exec pairWorld).1 = .ok () ∧
      ((issueSendTx { pairScript with
            lock := ⟨false, some (.openLock .io)⟩, rollback := Attempt.calm } ⟨""⟩ pairSender
          (pairArgs "http://receiver")).exec pairWorld).2.file.record?
            (Identifier.hexValue ⟨ofNat 10 9⟩) = none := by decide +kernel
  obtain ⟨hanswer, hlost⟩ := hend
  refine ⟨partialTx, coins, w₂, h, ?_, hanswer⟩
  rintro ⟨⟨data, hdata, r, hr, -⟩, -⟩
  rw [record?_of_read hdata, hr] at hlost
  cases hlost

end Sender

end GrinDotnet
