import GrinDotnet.Wallet.SendSteps

/-!
# Payments that were not delivered

The change is on disk before the transaction is built and before the destination is looked at, and
only a delivery that fails takes it back.

Results:
1. `traceless_iff`: when a payment that was not delivered leaves the wallet as it was.
2. `change_left_behind`: a malformed destination leaves the change of no transaction behind.
-/

namespace GrinDotnet

open Outcome WorldLemmas WalletLemmas

variable {env : Env}

namespace Sender

/-- The change reaches the wallet file: the refresh answers, the plan works out, and the write of the
change truncates the file. -/
structure ChangeWritten (script : SendScript) (config : WalletConfig) (kc : Keychain env)
    (args : SendArgs) (w w₁ : World) (height : UInt64) (coins : List OutputData) (change : UInt64)
    (inputs : List (UInt64 × Identifier)) (changeKey : Identifier) (data data' : WalletData) :
    Prop where
  refreshed : ∃ b, (Checker.refreshOutputs script.refresh config kc).exec w = (.ok b, w₁)
  planned : Planned script kc args w₁.file height coins change inputs changeKey data data'
  truncates : Truncates script.addChange w₁

/-- The change is taken back: its write was whole, the transaction is built, the destination is a
receiver who does not accept, and the rollback writes the file to its end. -/
structure TakenBack (script : SendScript) (kc : Keychain env) (args : SendArgs) (w₁ : World)
    (height : UInt64) (coins : List OutputData) (change : UInt64)
    (inputs : List (UInt64 × Identifier)) (changeKey : Identifier) : Prop where
  whole : script.addChange.fault = none
  built : ∃ tx blind, Build.transaction (SenderLemmas.sendParts coins inputs change changeKey
    ++ [Build.withLockHeight height]) kc = .ok (tx, blind)
  not_stdout : args.dest ≠ "stdout"
  http : env.stringStartsWith args.dest "http" = true
  refused : script.delivery ≠ none
  rollback : Truncates script.rollback { w₁ with lockHeld := false }
  rollback_whole : ∀ message onRead, script.rollback.fault ≠ some (.serialize message onRead)

/-- As long as nothing is lost, the change is there that was not there before. -/
theorem outputs_ne_of_keeps {file : WalletFile} {data data' : WalletData} {k : String}
    (hbefore : data.outputs.lookup k = none) (hafter : ∃ o, data'.outputs.lookup k = some o)
    (hkeeps : (WalletFile.stored data').Keeps file) : file.outputs? ≠ some data.outputs := by
  intro heq
  unfold WalletFile.outputs? at heq
  split at heq
  · next d hd =>
    obtain ⟨d', hd', hrecords, -⟩ := hkeeps d hd
    obtain rfl := Except.ok.inj hd'
    obtain ⟨o, ho⟩ := hafter
    obtain ⟨o', ho', -⟩ := hrecords k o ho
    rw [Option.some.inj heq, hbefore] at ho'
    cases ho'
  · cases heq

namespace Call

variable {call : Call env} {w : World}

/-- Without a plan that is written, the file stays as it is. -/
theorem run_of_not_written (htip : call.script.tip = .ok call.height)
    (h : ∀ coins change inputs changeKey data data', Planned call.script call.kc call.args w.file
      call.height coins change inputs changeKey data data' → ¬ Truncates call.script.addChange w) :
    (call.run.exec w).2.file = w.file := by
  have hsame := readWallet_snd call.script.selectFault
    (selectCoins call.kc call.args call.height) w
  simp only [run, buildSendTx, bind_assoc]
  rw [WalletM.exec_bind]
  rcases hread : (readWallet call.script.selectFault
    (selectCoins call.kc call.args call.height)).exec w with ⟨e | coins, w₁⟩ <;>
    rw [hread] at hsame <;> obtain rfl : w₁ = w := hsame
  · rfl
  · obtain ⟨-, hfault, data, hdata, hselect⟩ := readWallet_eq_ok hread
    simp only [inputsAndChange, bind_assoc]
    rw [WalletM.exec_bind, WalletM.exec_lift]
    rcases hfunds : fundsAndInputs call.kc coins call.args.amount with e | ⟨change, inputs⟩
    · rfl
    · simp only
      rw [WalletM.exec_bind]
      have hcalled := called_withWallet call.config call.script.addChange
        (addChange call.kc change) w₁
      have hwritten : ∀ {data₁ : WalletData} {r : Identifier × WalletData},
          w₁.file.readOrCreate = .ok data₁ → addChange call.kc change data₁ = .ok r →
          ¬ Truncates call.script.addChange w₁ := by
        intro data₁ r hdata₁ hr
        obtain rfl := Except.ok.inj (hdata.symm.trans hdata₁)
        exact h _ _ _ _ _ _ ⟨htip, hfault, hdata, hselect, hfunds, hr⟩
      generalize (withWallet call.config call.script.addChange
        (addChange call.kc change)).exec w₁ = r at hcalled
      cases hcalled with
      | refused | raised => rfl
      | tore _ ht _ hdata₁ hr | undisposed _ ht _ hdata₁ hr | done ht _ hdata₁ hr =>
        exact absurd ht (hwritten hdata₁ hr)

/-- What remains to do once the change is on disk. -/
def afterChange (call : Call env) (coins : List OutputData) (change : UInt64)
    (inputs : List (UInt64 × Identifier)) (changeKey : Identifier) : WalletM Unit := do
  let (tx, blindSum) ← WalletM.lift (Build.transaction
    (SenderLemmas.sendParts coins inputs change changeKey
      ++ [Build.withLockHeight call.height]) call.kc)
  dispatch env call.script call.config call.args.dest
    (buildPartialTx env call.args.amount blindSum tx) coins changeKey

/-- With a plan, a send writes its change and goes on. -/
theorem run_of_planned {coins : List OutputData} {change : UInt64}
    {inputs : List (UInt64 × Identifier)} {changeKey : Identifier} {data data' : WalletData}
    (hplan : Planned call.script call.kc call.args w.file call.height coins change inputs changeKey
      data data') :
    call.run.exec w = ((withWallet call.config call.script.addChange
      (addChange call.kc change)) >>= fun key =>
        call.afterChange coins change inputs key).exec w := by
  have hread : (readWallet call.script.selectFault
      (selectCoins call.kc call.args call.height)).exec w = (.ok coins, w) := by
    rw [readWallet_of_read _ hplan.selectFault hplan.read, hplan.select]
  have hfunds : (WalletM.lift (fundsAndInputs call.kc coins call.args.amount)).exec w
      = (.ok (change, inputs), w) := by
    rw [WalletM.exec_lift, hplan.funds]
  simp only [run, buildSendTx, inputsAndChange, bind_assoc]
  rw [WalletM.exec_bind_of_ok hread, WalletM.exec_bind_of_ok hfunds]
  simp only [pure_bind, afterChange, SenderLemmas.sendParts]

/-- A rollback after the change is on disk restores the wallet exactly when it writes the file to its
end. -/
theorem rollback_restores_iff {config : WalletConfig} {attempt : Attempt}
    {coins : List OutputData} {change : UInt64} {inputs : List (UInt64 × Identifier)}
    {changeKey : Identifier} {data data' : WalletData}
    (hplan : Planned call.script call.kc call.args w.file call.height coins change inputs changeKey
      data data') {v : World} (hv : v.file = .stored data') :
    ((rollbackWallet config attempt changeKey).exec v).2.file.outputs? = some data.outputs ↔
      Truncates attempt v ∧ ∀ message onRead, attempt.fault ≠ some (.serialize message onRead) := by
  have hread : v.file.readOrCreate = .ok data' := by rw [hv]; rfl
  have hcalled := called_withWallet config attempt
    (fun data => .ok ((), data.deleteOutput changeKey)) v
  unfold rollbackWallet
  generalize (withWallet config attempt
    fun data => .ok ((), data.deleteOutput changeKey)).exec v = r at hcalled
  have hstays : v.file.outputs? ≠ some data.outputs := by
    refine outputs_ne_of_keeps hplan.lookup_before hplan.lookup_after ?_
    rw [hv]
    exact keeps_refl _
  have hrestored : ∀ {data₁ : WalletData} {r : Unit × WalletData}, v.file.readOrCreate = .ok data₁ →
      (Except.ok ((), data₁.deleteOutput changeKey) : Except Exn (Unit × WalletData)) = .ok r →
      r.2 = data := by
    intro data₁ r hdata₁ hr
    obtain rfl := Except.ok.inj (hread.symm.trans hdata₁)
    obtain rfl := Except.ok.inj hr
    exact hplan.deleteOutput_eq
  cases hcalled with
  | refused e hacq => exact ⟨fun h => absurd h hstays, fun h => absurd h.1.1 hacq⟩
  | raised e _ hnot => exact ⟨fun h => absurd h hstays, fun h => absurd rfl (hnot h.1 data' hread _)⟩
  | tore e ht hfault => exact ⟨fun h => (nomatch h), fun h => absurd hfault (h.2 _ _)⟩
  | undisposed e ht hfault hdata₁ hr =>
    refine ⟨fun _ => ⟨ht, fun message onRead => by simp [hfault]⟩, fun _ => ?_⟩
    exact congrArg (fun d : WalletData => some d.outputs) (hrestored hdata₁ hr)
  | done ht hfault hdata₁ hr =>
    refine ⟨fun _ => ⟨ht, fun message onRead => by simp [hfault]⟩, fun _ => ?_⟩
    exact congrArg (fun d : WalletData => some d.outputs) (hrestored hdata₁ hr)

theorem exec_sendPartialTx (delivery : Option Exn) (partialTx : PartialTx) (v : World) :
    (sendPartialTx delivery partialTx).exec v = match delivery with
      | some e => (.error e, v)
      | none => (.ok (), { v with delivered := v.delivered ++ [partialTx] }) := rfl

/-- After a delivery the partial transaction is out. -/
theorem delivered_of_accepted {coins : List OutputData} {changeKey : Identifier}
    {partialTx : PartialTx} {v : World} (hstdout : call.args.dest ≠ "stdout")
    (hhttp : env.stringStartsWith call.args.dest "http" = true)
    (hdelivery : call.script.delivery = none) :
    ((dispatch env call.script call.config call.args.dest partialTx coins changeKey).exec
      v).2.delivered = v.delivered ++ [partialTx] := by
  have hsend : (sendPartialTx call.script.delivery partialTx).exec v
      = (.ok (), { v with delivered := v.delivered ++ [partialTx] }) := by
    rw [exec_sendPartialTx, hdelivery]
  simp only [dispatch, if_neg hstdout, if_pos hhttp]
  rw [WalletM.exec_orElse, WalletM.exec_bind_of_ok hsend]
  have hlock := (withWallet_delivered call.config call.script.lock (fun data => do
    let data ← data.lockCoins coins
    return ((), data)) { v with delivered := v.delivered ++ [partialTx] }).1
  unfold updateWallet
  generalize (withWallet call.config call.script.lock (fun data => do
    let data ← data.lockCoins coins
    return ((), data))).exec { v with delivered := v.delivered ++ [partialTx] } = r at hlock
  obtain ⟨_ | _, v₁⟩ := r
  · exact ((withWallet_delivered _ _ _ _).1).trans hlock
  · exact hlock

/-- With the change on disk and nothing delivered, the wallet is as before exactly when the change
is taken back. -/
theorem afterChange_restores_iff {coins : List OutputData} {change : UInt64}
    {inputs : List (UInt64 × Identifier)} {changeKey : Identifier} {data data' : WalletData}
    (hplan : Planned call.script call.kc call.args w.file call.height coins change inputs changeKey
      data data') (hwhole : call.script.addChange.fault = none) {v : World}
    (hv : v = { w with file := .stored data', lockHeld := false })
    (hquiet : ((call.afterChange coins change inputs changeKey).exec v).2.delivered = v.delivered) :
    ((call.afterChange coins change inputs changeKey).exec v).2.file.outputs? = some data.outputs ↔
      TakenBack call.script call.kc call.args w call.height coins change inputs changeKey := by
  have hstays : ∀ file, (WalletFile.stored data').Keeps file → file.outputs? ≠ some data.outputs :=
    fun file => outputs_ne_of_keeps hplan.lookup_before hplan.lookup_after
  have hfile : v.file = .stored data' := by rw [hv]
  unfold afterChange at hquiet ⊢
  rw [WalletM.exec_bind, WalletM.exec_lift] at hquiet ⊢
  rcases hbuild : Build.transaction (SenderLemmas.sendParts coins inputs change changeKey
      ++ [Build.withLockHeight call.height]) call.kc with e | ⟨tx, blind⟩
  -- the transaction is built outside the `try`, so its exceptions leave the change
  · refine ⟨fun h => absurd h (hstays _ (hfile ▸ keeps_refl _)), fun h => ?_⟩
    obtain ⟨tx, blind, hbuilt⟩ := h.built
    rw [hbuild] at hbuilt
    cases hbuilt
  · rw [hbuild] at hquiet
    simp only at hquiet ⊢
    by_cases hstdout : call.args.dest = "stdout"
    · -- the locking and the printing only add to what is there
      refine ⟨fun h => absurd h (hstays _ ?_), fun h => absurd hstdout h.not_stdout⟩
      simp only [dispatch, if_pos hstdout]
      have hkeeps := SenderLemmas.keeps_updateWallet call.config call.script.lock coins v
      rw [hfile] at hkeeps
      rw [WalletM.exec_bind]
      rcases hlock : (updateWallet call.config call.script.lock coins).exec v with ⟨_ | _, v₁⟩ <;>
        rw [hlock] at hkeeps <;> exact hkeeps
    · by_cases hhttp : env.stringStartsWith call.args.dest "http" = true
      · cases hdelivery : call.script.delivery with
        | none =>
          rw [delivered_of_accepted hstdout hhttp hdelivery] at hquiet
          exact absurd hquiet (by simp)
        | some e =>
          have hsend : ∀ partialTx, (sendPartialTx call.script.delivery partialTx).exec v
              = (.error e, v) := fun partialTx => by rw [exec_sendPartialTx, hdelivery]
          simp only [dispatch, if_neg hstdout, if_pos hhttp]
          rw [WalletM.exec_orElse, WalletM.exec_bind_of_error (hsend _)]
          simp only
          rw [rollback_restores_iff hplan hfile]
          have hsame : Truncates call.script.rollback v ↔
              Truncates call.script.rollback { w with lockHeld := false } := by
            rw [hv]
            rfl
          rw [hsame]
          constructor
          · rintro ⟨ht, hcut⟩
            exact ⟨hwhole, ⟨tx, blind, hbuild⟩, hstdout, hhttp, by simp [hdelivery], ht, hcut⟩
          · exact fun h => ⟨h.rollback, h.rollback_whole⟩
      -- neither the console nor a receiver: the exception is raised outside the `try`
      · refine ⟨fun h => absurd h (hstays _ ?_), fun h => absurd h.http hhttp⟩
        simp only [dispatch, if_neg hstdout, if_neg hhttp]
        exact hfile ▸ keeps_refl _

/-- With a plan that is written, the wallet is as before exactly when the change is taken back. -/
theorem run_restores_iff {coins : List OutputData} {change : UInt64}
    {inputs : List (UInt64 × Identifier)} {changeKey : Identifier} {data data' : WalletData}
    (hplan : Planned call.script call.kc call.args w.file call.height coins change inputs changeKey
      data data') (htruncates : Truncates call.script.addChange w)
    (hquiet : (call.run.exec w).2.delivered = w.delivered) :
    (call.run.exec w).2.file.outputs? = some data.outputs ↔
      TakenBack call.script call.kc call.args w call.height coins change inputs changeKey := by
  have hclosure : ∀ {data₁ : WalletData} {r : Identifier × WalletData},
      w.file.readOrCreate = .ok data₁ → addChange call.kc change data₁ = .ok r →
      r = (changeKey, data') := by
    intro data₁ r hdata₁ hr
    obtain rfl := Except.ok.inj (hplan.read.symm.trans hdata₁)
    exact Except.ok.inj (hr.symm.trans hplan.record)
  rw [run_of_planned hplan] at hquiet ⊢
  rw [WalletM.exec_bind] at hquiet ⊢
  have hcalled := called_withWallet call.config call.script.addChange (addChange call.kc change) w
  generalize (withWallet call.config call.script.addChange
    (addChange call.kc change)).exec w = r at hcalled hquiet ⊢
  have hbroken : call.script.addChange.fault ≠ none →
      ¬ TakenBack call.script call.kc call.args w call.height coins change inputs changeKey :=
    fun hfault h => hfault h.whole
  cases hcalled with
  | refused _ hacq => exact absurd htruncates.1 hacq
  | raised _ _ hnot => exact absurd hplan.record (hnot htruncates data hplan.read _)
  | tore e _ hfault =>
    exact ⟨fun h => (nomatch h), fun h => absurd h (hbroken (by simp [hfault]))⟩
  | undisposed e _ hfault hdata₁ hr =>
    obtain rfl := hclosure hdata₁ hr
    refine ⟨fun h => absurd h ?_, fun h => absurd h (hbroken (by simp [hfault]))⟩
    exact outputs_ne_of_keeps hplan.lookup_before hplan.lookup_after (keeps_refl _)
  | done _ hfault hdata₁ hr =>
    obtain rfl := hclosure hdata₁ hr
    exact afterChange_restores_iff hplan hfault rfl hquiet

end Call

theorem refreshOutputs_delivered (script : Checker.RefreshScript) (config : WalletConfig)
    (kc : Keychain env) (w : World) :
    ((Checker.refreshOutputs script config kc).exec w).2.delivered = w.delivered := by
  have hsame := readWallet_snd script.readFault (Checker.snapshot kc) w
  rw [Checker.refreshOutputs, WalletM.exec_bind]
  rcases hread : (readWallet script.readFault (Checker.snapshot kc)).exec w with ⟨e | s, w₁⟩ <;>
    rw [hread] at hsame <;> obtain rfl : w₁ = w := hsame
  · rfl
  · cases script.answer with
    | unreachable | failureStatus | malformed => rfl
    | outputs outputs =>
      simp only
      rw [WalletM.exec_bind, WalletM.exec_lift]
      rcases Checker.apiOutputs outputs with e | answers
      · rfl
      · simp only
        rw [WalletM.exec_bind]
        have hkept := (withWallet_delivered config script.attempt (Checker.applied s answers) w₁).1
        rcases hwrite : (withWallet config script.attempt (Checker.applied s answers)).exec w₁
          with ⟨_ | _, w₂⟩ <;> rw [hwrite] at hkept <;> exact hkept

/-- A payment that was not delivered leaves the outputs as the refresh left them exactly when its
change was not written, or was taken back. A printed payment is none of these. -/
theorem traceless_iff {script : SendScript} {config : WalletConfig} {kc : Keychain env}
    {args : SendArgs} {w : World}
    (hquiet : ((issueSendTx script config kc args).exec w).2.delivered = w.delivered) :
    ((issueSendTx script config kc args).exec w).2.file.outputs?
        = ((Checker.refreshOutputs script.refresh config kc).exec w).2.file.outputs? ↔
      ∀ w₁ height coins change inputs changeKey data data',
        ChangeWritten script config kc args w w₁ height coins change inputs changeKey data data' →
        TakenBack script kc args w₁ height coins change inputs changeKey := by
  have hrefreshed := refreshOutputs_delivered script.refresh config kc w
  rw [issueSendTx_eq, WalletM.exec_bind] at hquiet ⊢
  rcases hrefresh : (Checker.refreshOutputs script.refresh config kc).exec w with ⟨e | b, w₁⟩
  · refine ⟨fun _ w₁' _ _ _ _ _ _ _ h => ?_, fun _ => rfl⟩
    obtain ⟨b, hb⟩ := h.refreshed
    rw [hrefresh] at hb
    cases hb
  · rw [hrefresh] at hquiet hrefreshed
    simp only at hquiet hrefreshed ⊢
    have hsame : ∀ {w₁' : World}, (∃ b, (Checker.refreshOutputs script.refresh config kc).exec w
        = (.ok b, w₁')) → w₁' = w₁ := by
      rintro w₁' ⟨b', hb'⟩
      exact ((Prod.mk.inj (hrefresh.symm.trans hb')).2).symm
    rw [WalletM.exec_bind, WalletM.exec_lift] at hquiet ⊢
    rcases htip : script.tip with e | height
    · refine ⟨fun _ w₁' _ _ _ _ _ _ _ h => ?_, fun _ => rfl⟩
      have := h.planned.tip
      rw [htip] at this
      cases this
    · rw [htip] at hquiet
      simp only at hquiet ⊢
      rw [← hrefreshed] at hquiet
      by_cases hwritten : ∃ coins change inputs changeKey data data',
          Planned script kc args w₁.file height coins change inputs changeKey data data' ∧
            Truncates script.addChange w₁
      · obtain ⟨coins, change, inputs, changeKey, data, data', hplan, htruncates⟩ := hwritten
        have hbefore : w₁.file.outputs? = some data.outputs := by
          simp [WalletFile.outputs?, hplan.read]
        have hiff : ((⟨config, kc, args, height, script⟩ : Call env).run.exec w₁).2.file.outputs?
            = some data.outputs ↔
              TakenBack script kc args w₁ height coins change inputs changeKey :=
          Call.run_restores_iff hplan htruncates hquiet
        rw [hbefore, hiff]
        constructor
        · intro h w₁' height' coins' change' inputs' changeKey' data₁ data₁' h'
          obtain rfl := hsame h'.refreshed
          obtain ⟨rfl, rfl, rfl, rfl, rfl, -, -⟩ := hplan.unique h'.planned
          exact h
        · exact fun h => h _ _ _ _ _ _ _ _ ⟨⟨b, hrefresh⟩, hplan, htruncates⟩
      · have hnot : ∀ coins change inputs changeKey data data', Planned script kc args w₁.file height
            coins change inputs changeKey data data' → ¬ Truncates script.addChange w₁ :=
          fun _ _ _ _ _ _ hplan ht => hwritten ⟨_, _, _, _, _, _, hplan, ht⟩
        have hfile : ((⟨config, kc, args, height, script⟩ : Call env).run.exec w₁).2.file = w₁.file :=
          Call.run_of_not_written htip hnot
        refine ⟨fun _ w₁' height' _ _ _ _ _ _ h => ?_, fun _ => congrArg WalletFile.outputs? hfile⟩
        obtain rfl := hsame h.refreshed
        obtain rfl := Except.ok.inj (htip.symm.trans h.planned.tip)
        exact absurd h.truncates (hnot _ _ _ _ _ _ h.planned)

/-- Surroundings in which the delivery fails. -/
def pairRefused : SendScript := { pairScript with delivery := some .io }

/-- The condition at a send whose delivery fails. -/
theorem traceless_iff_pairs :
    ((issueSendTx pairRefused ⟨""⟩ pairSender (pairArgs "http://receiver")).exec
        pairWorld).2.file.outputs?
      = ((Checker.refreshOutputs pairRefused.refresh ⟨""⟩ pairSender).exec
          pairWorld).2.file.outputs? ↔
    ∀ w₁ height coins change inputs changeKey data data',
      ChangeWritten pairRefused ⟨""⟩ pairSender (pairArgs "http://receiver") pairWorld w₁ height coins
        change inputs changeKey data data' →
      TakenBack pairRefused pairSender (pairArgs "http://receiver") w₁ height coins change inputs
        changeKey := by
  have hquiet : ((issueSendTx pairRefused ⟨""⟩ pairSender (pairArgs "http://receiver")).exec
      pairWorld).2.delivered = pairWorld.delivered := by decide +kernel
  exact traceless_iff hquiet

/-- A destination that is neither `stdout` nor a URL is refused after the change was written, and
the change stays. -/
theorem change_left_behind :
    ((issueSendTx pairScript ⟨""⟩ pairSender (pairArgs "receiver")).exec pairWorld).2.delivered = [] ∧
    ((issueSendTx pairScript ⟨""⟩ pairSender (pairArgs "receiver")).exec pairWorld).2.printed = [] ∧
    ((issueSendTx pairScript ⟨""⟩ pairSender (pairArgs "receiver")).exec
        pairWorld).2.file.outputs?
      ≠ ((Checker.refreshOutputs pairScript.refresh ⟨""⟩ pairSender).exec
          pairWorld).2.file.outputs? := by
  decide +kernel

end Sender

end GrinDotnet
