import GrinDotnet.Lib.Run
import GrinDotnet.Wallet.Receiver

/-!
# Wallet operations

What one keychain does with a wallet file, as labelled steps: the label says which output was
created, or which record is gone.

Results:
1. `exists_recording`, `exists_creation`: what is written when a record is made.
2. `present_of_operation`: a record stays until its key id is removed.
3. `run_issueSendTx`, `composed_receiveTransaction`, `composed_receiveCoinbase`: a send and what a
   receiver does are runs of operations.
-/

namespace GrinDotnet

open BigEndian Outcome WorldLemmas WalletLemmas

variable {env : Env}

/-- What an operation does to the outputs of a wallet. -/
inductive Event
  /-- An output with this commitment was put into a transaction or a block, under the key of this
  index. -/
  | created (index : UInt32) (commit : Commitment)
  /-- A record was made under the key of this index, and no transaction or block with an output of it was
  given out. -/
  | recorded (index : UInt32)
  /-- A rollback has left the file without a record of this key id. -/
  | removed (keyId : Identifier)
  | other
deriving DecidableEq

/-- The index under which a record was made. -/
def Event.index? : Event → Option UInt32
  | .created index _ => some index
  | .recorded index => some index
  | .removed _ => none
  | .other => none

/-- If the file can be read, it has a record under the key. -/
def Present (k : String) (file : WalletFile) : Prop :=
  file.Satisfies fun data => ∃ o, data.outputs.lookup k = some o

/-- The operations of a keychain that complete. -/
inductive Completed (kc : Keychain env) : World → Event → World → Prop
  /-- A send recorded its change, and its transaction was built. -/
  | sent {config : WalletConfig} {attempt : Attempt} {coins : List OutputData}
      {amount height : UInt64} {w w' : World} {data : WalletData} {parts : List (Combinator env)}
      {changeKey : Identifier} {tx : Transaction} {blind : BlindingFactor env.secp} {out : Output} :
      w.file.readOrCreate = .ok data →
      (Sender.inputsAndChange config kc attempt coins amount).exec w = (.ok (parts, changeKey), w') →
      Build.transaction (parts ++ [Build.withLockHeight height]) kc = .ok (tx, blind) →
      tx.outputs = [out] →
      Completed kc w (.created (data.nextChild kc.rootKeyId) out.commit) w'
  /-- A send recorded its change, and its transaction could not be built. -/
  | unbuilt {config : WalletConfig} {attempt : Attempt} {coins : List OutputData}
      {amount height : UInt64} {w w' : World} {data : WalletData} {parts : List (Combinator env)}
      {changeKey : Identifier} {e : Exn} :
      w.file.readOrCreate = .ok data →
      (Sender.inputsAndChange config kc attempt coins amount).exec w = (.ok (parts, changeKey), w') →
      Build.transaction (parts ++ [Build.withLockHeight height]) kc = .error e →
      Completed kc w (.recorded (data.nextChild kc.rootKeyId)) w'
  /-- A payment was received: one output was added to those of the sender. -/
  | received {config : WalletConfig} {attempt : Attempt} {amount : UInt64}
      {blinding : BlindingFactor env.secp} {tx txFinal : Transaction} {w w' : World}
      {data : WalletData} {out : Output} :
      w.file.readOrCreate = .ok data →
      (WalletReceiver.receiveTransaction config kc attempt amount blinding tx).exec w
        = (.ok txFinal, w') →
      txFinal.outputs = tx.outputs ++ [out] →
      Completed kc w (.created (data.nextChild kc.rootKeyId) out.commit) w'
  /-- A reward was received under a new key. -/
  | rewarded {config : WalletConfig} {attempt : Attempt} {fees height : UInt64} {w w' : World}
      {data : WalletData} {out : Output} {kern : TxKernel} {blockFees : BlockFees} :
      w.file.readOrCreate = .ok data →
      (WalletReceiver.receiveCoinbase config kc attempt ⟨fees, height, none⟩).exec w
        = (.ok (out, kern, blockFees), w') →
      Completed kc w (.created (data.nextChild kc.rootKeyId) out.commit) w'
  | locked {config : WalletConfig} {attempt : Attempt} {coins : List OutputData} {w w' : World} :
      (Sender.updateWallet config attempt coins).exec w = (.ok (), w') → Completed kc w .other w'
  | removed {config : WalletConfig} {attempt : Attempt} {keyId : Identifier} {w w' : World} :
      (Sender.rollbackWallet config attempt keyId).exec w = (.ok (), w') →
      Completed kc w (.removed keyId) w'
  | refreshed {config : WalletConfig} {script : Checker.RefreshScript} {b : Bool} {w w' : World} :
      (Checker.refreshOutputs script config kc).exec w = (.ok b, w') → Completed kc w .other w'

/-- A record was made: it is new, under the key id of the next index. -/
structure Recording (kc : Keychain env) (file : WalletFile) (index : UInt32) (file' : WalletFile)
    (data data' : WalletData) (o : OutputData) (keyId : Identifier) : Prop where
  read : file.readOrCreate = .ok data
  next : index = data.nextChild kc.rootKeyId
  derived : kc.deriveKeyId index = .ok keyId
  root : o.rootKeyId = kc.rootKeyId.hexValue
  filed : o.keyId = keyId.hexValue
  child : o.nChild = index
  added : data.addOutput o = .ok data'
  written : file' = .stored data'

/-- An operation that makes a record has raised, before or after it was made. -/
inductive Raised (kc : Keychain env) : World → World → Prop
  | send {config : WalletConfig} {attempt : Attempt} {coins : List OutputData} {amount : UInt64}
      {w w' : World} {e : Exn} :
      (Sender.inputsAndChange config kc attempt coins amount).exec w = (.error e, w') → Raised kc w w'
  | receive {config : WalletConfig} {attempt : Attempt} {amount : UInt64}
      {blinding : BlindingFactor env.secp} {tx : Transaction} {w w' : World} {e : Exn} :
      (WalletReceiver.receiveTransaction config kc attempt amount blinding tx).exec w
        = (.error e, w') → Raised kc w w'
  | reward {config : WalletConfig} {attempt : Attempt} {fees height : UInt64} {w w' : World}
      {e : Exn} :
      (WalletReceiver.receiveCoinbase config kc attempt ⟨fees, height, none⟩).exec w
        = (.error e, w') → Raised kc w w'

/-- The operations of a keychain, those included that raise. -/
inductive Operation (kc : Keychain env) : World → Event → World → Prop
  | completed {w w' : World} {event : Event} : Completed kc w event w' → Operation kc w event w'
  /-- A send, a receipt or a reward raised, and its record was made all the same. -/
  | recorded {w w' : World} {index : UInt32} {data data' : WalletData} {o : OutputData}
      {keyId : Identifier} : Raised kc w w' →
      Recording kc w.file index w'.file data data' o keyId → Operation kc w (.recorded index) w'
  | raised {w w' : World} : Raised kc w w' →
      (∀ index data data' o keyId, ¬ Recording kc w.file index w'.file data data' o keyId) →
      Operation kc w .other w'
  | lockRaised {config : WalletConfig} {attempt : Attempt} {coins : List OutputData} {w w' : World}
      {e : Exn} :
      (Sender.updateWallet config attempt coins).exec w = (.error e, w') → Operation kc w .other w'
  /-- A rollback raised, and the file does not have the record any more. -/
  | removeRaised {config : WalletConfig} {attempt : Attempt} {keyId : Identifier} {w w' : World}
      {e : Exn} :
      (Sender.rollbackWallet config attempt keyId).exec w = (.error e, w') →
      ¬ Present keyId.hexValue w'.file → Operation kc w (.removed keyId) w'
  /-- A rollback raised and left the record, or a file that cannot be read any more. -/
  | rollbackRaised {config : WalletConfig} {attempt : Attempt} {keyId : Identifier} {w w' : World}
      {e : Exn} :
      (Sender.rollbackWallet config attempt keyId).exec w = (.error e, w') →
      Present keyId.hexValue w'.file → Operation kc w .other w'
  | refreshRaised {config : WalletConfig} {script : Checker.RefreshScript} {w w' : World} {e : Exn} :
      (Checker.refreshOutputs script config kc).exec w = (.error e, w') → Operation kc w .other w'
  /-- Something was delivered or printed. -/
  | talked {w w' : World} : w'.file = w.file → Operation kc w .other w'

/-! ## What a creation writes -/

/-- An output was created: a record was made, and the output is the commitment of its value under its
key id. -/
structure Creation (kc : Keychain env) (file : WalletFile) (index : UInt32) (commit : Commitment)
    (file' : WalletFile) (data data' : WalletData) (o : OutputData) (keyId : Identifier) : Prop
    extends Recording kc file index file' data data' o keyId where
  committed : kc.commit o.value keyId = .ok commit

/-- The one output of a send is its change. -/
theorem outputs_of_sendParts {kc : Keychain env} {coins : List OutputData}
    {inputs : List (UInt64 × Identifier)} {change height : UInt64} {changeKey : Identifier}
    {tx : Transaction} {blind : BlindingFactor env.secp}
    (h : Build.transaction (SenderLemmas.sendParts coins inputs change changeKey
      ++ [Build.withLockHeight height]) kc = .ok (tx, blind)) :
    ∃ out, tx.outputs = [out] ∧ kc.commit change changeKey = .ok out.commit := by
  obtain ⟨ctx, hrun, houtputs⟩ := BuildLemmas.outputs_of_transaction h
  have hbefore : ∀ elem ∈ (Build.withFee (Sender.sendFee coins) ::
      inputs.map fun c => Build.input c.1 c.2 : List (Combinator env)), BuildLemmas.Quiet elem := by
    intro elem hmem
    rcases List.mem_cons.mp hmem with rfl | hmem
    · exact BuildLemmas.quiet_withFee _
    · obtain ⟨c, -, rfl⟩ := List.mem_map.mp hmem
      exact BuildLemmas.quiet_input _ _
  have hafter : ∀ elem ∈ ([Build.withLockHeight height] : List (Combinator env)),
      BuildLemmas.Quiet elem := by
    intro elem hmem
    obtain rfl := List.mem_singleton.mp hmem
    exact BuildLemmas.quiet_withLockHeight _
  rw [SenderLemmas.sendParts, List.append_assoc] at hrun
  obtain ⟨out, hcommit, hadded⟩ := BuildLemmas.outputs_of_output hbefore hafter hrun
  exact ⟨out, houtputs.trans hadded, hcommit⟩

/-- A receiver adds one output, the amount less the fee. -/
theorem outputs_of_received {kc : Keychain env} {tx txFinal : Transaction} {outAmount : UInt64}
    {blinding blind : BlindingFactor env.secp} {keyId : Identifier}
    (h : Build.transaction [Build.initialTx tx, Build.withExcess blinding,
      Build.output outAmount keyId] kc = .ok (txFinal, blind)) :
    ∃ out, txFinal.outputs = tx.outputs ++ [out] ∧ kc.commit outAmount keyId = .ok out.commit := by
  obtain ⟨ctx, hrun, houtputs⟩ := BuildLemmas.outputs_of_transaction h
  obtain ⟨ctx₁, hfirst, hrest⟩ := foldlM_cons_eq_ok.mp hrun
  obtain rfl := Except.ok.inj hfirst
  have hbefore : ∀ elem ∈ [Build.withExcess blinding], BuildLemmas.Quiet elem := by
    intro elem hmem
    obtain rfl := List.mem_singleton.mp hmem
    exact BuildLemmas.quiet_withExcess _
  obtain ⟨out, hcommit, hadded⟩ := BuildLemmas.outputs_of_output hbefore
    (fun _ hmem => absurd hmem List.not_mem_nil) hrest
  exact ⟨out, houtputs.trans hadded, hcommit⟩

/-- A send that answered has recorded its change. -/
theorem recording_of_inputsAndChange {kc : Keychain env} {config : WalletConfig} {attempt : Attempt}
    {coins : List OutputData} {amount : UInt64} {w w' : World} {data : WalletData}
    {parts : List (Combinator env)} {changeKey : Identifier} (hdata : w.file.readOrCreate = .ok data)
    (hparts : (Sender.inputsAndChange config kc attempt coins amount).exec w
      = (.ok (parts, changeKey), w')) :
    ∃ change inputs data' o, parts = SenderLemmas.sendParts coins inputs change changeKey ∧
      o.value = change ∧
      Recording kc w.file (data.nextChild kc.rootKeyId) w'.file data data' o changeKey := by
  obtain ⟨change, inputs, data₁, data', -, hread, hadd, rfl, rfl⟩ :=
    SenderLemmas.inputsAndChange_eq_ok hparts
  obtain rfl := Except.ok.inj (hdata.symm.trans hread)
  obtain ⟨hderived, hadded⟩ := SenderLemmas.addChange_eq_ok.mp hadd
  exact ⟨change, inputs, data', _, rfl, rfl, hread, rfl, hderived, rfl, rfl, rfl, hadded, rfl⟩

/-- Whichever operation it was, a creation writes one record for one output. -/
theorem exists_creation {kc : Keychain env} {w w' : World} {index : UInt32} {commit : Commitment}
    (h : Completed kc w (.created index commit) w') :
    ∃ data data' o keyId, Creation kc w.file index commit w'.file data data' o keyId := by
  cases h with
  | sent hdata hparts hbuild hout =>
    obtain ⟨change, inputs, data', o, rfl, rfl, hrecording⟩ :=
      recording_of_inputsAndChange hdata hparts
    obtain ⟨out, hout', hcommit⟩ := outputs_of_sendParts hbuild
    obtain rfl := List.head_eq_of_cons_eq (hout'.symm.trans hout)
    exact ⟨_, data', o, _, hrecording, hcommit⟩
  | received hdata hreceive hout =>
    obtain ⟨data, data', keyId, derivation, blind, hread, hadd, hbuild, rfl⟩ :=
      ReceiverLemmas.receiveTransaction_eq_ok hreceive
    obtain rfl := Except.ok.inj (hdata.symm.trans hread)
    obtain ⟨hderived, rfl, hadded⟩ := ReceiverLemmas.addReceived_eq_ok.mp hadd
    obtain ⟨out, hout', hcommit⟩ := outputs_of_received hbuild
    obtain rfl := List.singleton_inj.mp (List.append_cancel_left (hout'.symm.trans hout))
    exact ⟨_, data', _, _, ⟨hread, rfl, hderived, rfl, rfl, rfl, hadded, rfl⟩, hcommit⟩
  | rewarded hdata hreceive =>
    obtain ⟨data, data', keyId, derivation, hread, hadd, hreward, rfl⟩ :=
      ReceiverLemmas.receiveCoinbase_eq_ok hreceive
    obtain rfl := Except.ok.inj (hdata.symm.trans hread)
    obtain ⟨hderived, rfl, hadded⟩ := ReceiverLemmas.addCoinbase_eq_ok.mp hadd
    exact ⟨_, data', _, _, ⟨hread, rfl, hderived, rfl, rfl, rfl, hadded, rfl⟩,
      ReceiverLemmas.commit_of_rewardOutput hreward⟩

/-- Whichever operation it was, a new index is that of one new record, and an output with it is the
commitment of the record's value. -/
theorem exists_recording {kc : Keychain env} {w w' : World} {event : Event} {index : UInt32}
    (h : Completed kc w event w') (hindex : event.index? = some index) :
    ∃ data data' o keyId, Recording kc w.file index w'.file data data' o keyId ∧
      ∀ commit, event = .created index commit → kc.commit o.value keyId = .ok commit := by
  cases event with
  | created i c =>
    obtain rfl := Option.some.inj hindex
    obtain ⟨data, data', o, keyId, hcreation⟩ := exists_creation h
    refine ⟨data, data', o, keyId, hcreation.toRecording, fun commit he => ?_⟩
    obtain rfl := (Event.created.inj he).2
    exact hcreation.committed
  | recorded i =>
    obtain rfl := Option.some.inj hindex
    cases h with
    | unbuilt hdata hparts =>
      obtain ⟨-, -, data', o, -, -, hrecording⟩ := recording_of_inputsAndChange hdata hparts
      refine ⟨_, data', o, _, hrecording, fun commit he => ?_⟩
      cases he
  | removed | other => cases hindex

/-- With a plan and nothing in the way, a send creates its change. -/
theorem sent_of_build {kc : Keychain env} (config : WalletConfig) (attempt : Attempt)
    {coins : List OutputData} {amount change height : UInt64} {w : World} {data data' : WalletData}
    {inputs : List (UInt64 × Identifier)} {changeKey : Identifier} {commit : Commitment}
    (hfault : attempt.fault = none) (hheld : w.lockHeld = true → attempt.finalizer = true)
    (hfunds : Sender.fundsAndInputs kc coins amount = .ok (change, inputs))
    (hread : w.file.readOrCreate = .ok data)
    (hadd : Sender.addChange kc change data = .ok (changeKey, data'))
    (hbuild : (Build.transaction (SenderLemmas.sendParts coins inputs change changeKey
      ++ [Build.withLockHeight height]) kc).isOk = true)
    (hcommit : kc.commit change changeKey = .ok commit) :
    Completed kc w (.created (data.nextChild kc.rootKeyId) commit)
      { w with file := .stored data', lockHeld := false } := by
  obtain ⟨⟨tx, blind⟩, hbuild⟩ := exists_of_isOk hbuild
  obtain ⟨out, hout, hcommit'⟩ := outputs_of_sendParts hbuild
  obtain rfl := Except.ok.inj (hcommit.symm.trans hcommit')
  have hparts : (Sender.inputsAndChange config kc attempt coins amount).exec w = _ :=
    SenderLemmas.exec_inputsAndChange hfault hheld hfunds hread hadd
  exact .sent hread hparts hbuild hout

/-! ## What operations leave -/

theorem present_of_keeps {k : String} {file file' : WalletFile} (h : file.Keeps file')
    (hpresent : Present k file) : Present k file' := by
  intro data' hdata'
  obtain ⟨data, hdata, hkeeps, -⟩ := h data' hdata'
  obtain ⟨o, ho⟩ := hpresent data hdata
  obtain ⟨o', ho', -⟩ := hkeeps k o ho
  exact ⟨o', ho'⟩

theorem keeps_of_exec {α : Type} {x : WalletM α} (hx : ∀ w : World, w.file.Keeps (x.exec w).2.file)
    {w w' : World} {r : Except Exn α} (h : x.exec w = (r, w')) : w.file.Keeps w'.file := by
  have hkeeps := hx w
  rwa [h] at hkeeps

/-- A rollback that raised and left the record, or a file that cannot be read, has lost nothing. -/
theorem keeps_rollbackWallet {config : WalletConfig} {attempt : Attempt} {keyId : Identifier}
    {w w' : World} {e : Exn} (h : (Sender.rollbackWallet config attempt keyId).exec w = (.error e, w'))
    (hpresent : Present keyId.hexValue w'.file) : w.file.Keeps w'.file := by
  have hcalled := called_withWallet config attempt
    (fun walletData => .ok ((), walletData.deleteOutput keyId)) w
  rw [← Sender.rollbackWallet, h] at hcalled
  cases hcalled with
  | refused | raised => exact keeps_refl _
  | tore =>
    intro data hread
    cases hread
  | undisposed _ _ _ _ hdelete =>
    -- the record is not in the file that was stored
    obtain rfl := Except.ok.inj hdelete
    obtain ⟨o, ho⟩ := hpresent _ rfl
    rw [lookup_deleteOutput, if_pos rfl] at ho
    cases ho

/-- What raises in the making of a record loses none. -/
theorem keeps_of_raised {kc : Keychain env} {w w' : World} (h : Raised kc w w') :
    w.file.Keeps w'.file := by
  cases h with
  | send h => exact keeps_of_exec (SenderLemmas.keeps_inputsAndChange _ _ _ _ _) h
  | receive h => exact keeps_of_exec (ReceiverLemmas.keeps_receiveTransaction _ _ _ _ _ _) h
  | reward h => exact keeps_of_exec (ReceiverLemmas.keeps_receiveCoinbase _ _ _ _) h

/-- Only a removal loses records. -/
theorem keeps_of_operation {kc : Keychain env} {w w' : World} {event : Event}
    (h : Operation kc w event w') (hevent : ∀ keyId, event ≠ .removed keyId) :
    w.file.Keeps w'.file := by
  cases h with
  | completed h =>
    cases h with
    | sent _ h | unbuilt _ h => exact keeps_of_exec (SenderLemmas.keeps_inputsAndChange _ _ _ _ _) h
    | received _ h => exact keeps_of_exec (ReceiverLemmas.keeps_receiveTransaction _ _ _ _ _ _) h
    | rewarded _ h => exact keeps_of_exec (ReceiverLemmas.keeps_receiveCoinbase _ _ _ _) h
    | locked h => exact keeps_of_exec (SenderLemmas.keeps_updateWallet _ _ _) h
    | removed => exact absurd rfl (hevent _)
    | refreshed h => exact keeps_of_exec (CheckerLemmas.keeps_refreshOutputs _ _ _) h
  | recorded h | raised h => exact keeps_of_raised h
  | lockRaised h => exact keeps_of_exec (SenderLemmas.keeps_updateWallet _ _ _) h
  | removeRaised => exact absurd rfl (hevent _)
  | rollbackRaised h hpresent => exact keeps_rollbackWallet h hpresent
  | refreshRaised h => exact keeps_of_exec (CheckerLemmas.keeps_refreshOutputs _ _ _) h
  | talked h => exact h ▸ keeps_refl _

/-- A removal leaves the records of other keys. -/
theorem present_rollbackWallet {config : WalletConfig} {attempt : Attempt} {keyId : Identifier}
    {w : World} {k : String} (hk : keyId.hexValue ≠ k) (hpresent : Present k w.file) :
    Present k ((Sender.rollbackWallet config attempt keyId).exec w).2.file := by
  refine satisfies_withWallet (fun data _ data' _ hdata hstep => ?_) hpresent
  obtain ⟨o, ho⟩ := hdata
  obtain ⟨-, rfl⟩ := Prod.mk.inj (Except.ok.inj hstep)
  exact ⟨o, by rw [lookup_deleteOutput, if_neg (Ne.symm hk), ho]⟩

/-- A record stays until its key id is removed. -/
theorem present_of_operation {kc : Keychain env} {w w' : World} {event : Event} {k : String}
    (h : Operation kc w event w') (hk : ∀ keyId, event = .removed keyId → keyId.hexValue ≠ k)
    (hpresent : Present k w.file) : Present k w'.file := by
  have hremove : ∀ {config attempt keyId r}, event = .removed keyId →
      (Sender.rollbackWallet config attempt keyId).exec w = (r, w') → Present k w'.file := by
    intro config attempt keyId r he hexec
    have hleft : Present k ((Sender.rollbackWallet config attempt keyId).exec w).2.file :=
      present_rollbackWallet (hk keyId he) hpresent
    rwa [hexec] at hleft
  cases event with
  | created | recorded | other =>
    exact present_of_keeps (keeps_of_operation h fun _ he => nomatch he) hpresent
  | removed keyId =>
    cases h with
    | completed h =>
      cases h with
      | removed h => exact hremove rfl h
    | removeRaised h => exact hremove rfl h

theorem present_of_run {kc : Keychain env} {w w' : World} {history : List Event} {k : String}
    (hrun : Run (Operation kc) w history w')
    (hk : ∀ keyId, .removed keyId ∈ history → keyId.hexValue ≠ k) (hpresent : Present k w.file) :
    Present k w'.file := by
  refine hrun.invariant_history (P := fun history w =>
    (∀ keyId, .removed keyId ∈ history → keyId.hexValue ≠ k) → Present k w.file)
    (fun history w₁ event w₂ ih hstep hk => ?_) (fun _ => hpresent) hk
  refine present_of_operation hstep (fun keyId he => hk keyId (by simp [he])) (ih fun keyId hmem => ?_)
  exact hk keyId (List.mem_append_left _ hmem)

/-! ## Calls as operations -/

/-- A computation is a run of operations. -/
def Composed (kc : Keychain env) {α : Type} (x : WalletM α) : Prop :=
  ∀ w, ∃ history, Run (Operation kc) w history (x.exec w).2

section Composed

variable {kc : Keychain env} {α β : Type}

theorem composed_bind {x : WalletM α} {f : α → WalletM β} (hx : Composed kc x)
    (hf : ∀ a, Composed kc (f a)) : Composed kc (x >>= f) := by
  intro w
  obtain ⟨history, hrun⟩ := hx w
  rw [WalletM.exec_bind]
  rcases hresult : x.exec w with ⟨e | a, w₁⟩ <;> rw [hresult] at hrun
  · exact ⟨history, hrun⟩
  · obtain ⟨later, hlater⟩ := hf a w₁
    exact ⟨history ++ later, hrun.trans hlater⟩

theorem composed_orElse {x : WalletM α} {handler : Exn → WalletM α} (hx : Composed kc x)
    (hhandler : ∀ e, Composed kc (handler e)) : Composed kc (x.orElse handler) := by
  intro w
  obtain ⟨history, hrun⟩ := hx w
  rw [WalletM.exec_orElse]
  rcases hresult : x.exec w with ⟨e | a, w₁⟩ <;> rw [hresult] at hrun
  · obtain ⟨later, hlater⟩ := hhandler e w₁
    exact ⟨history ++ later, hrun.trans hlater⟩
  · exact ⟨history, hrun⟩

theorem composed_of_operation {x : WalletM α} (h : ∀ w, ∃ event, Operation kc w event (x.exec w).2) :
    Composed kc x := fun w => by
  obtain ⟨event, hstep⟩ := h w
  exact ⟨[event], .single hstep⟩

/-- What raised is an operation, whether its record was made or not. -/
theorem operation_of_raised {w w' : World} (h : Raised kc w w') :
    ∃ event, Operation kc w event w' := by
  by_cases hmade : ∃ index data data' o keyId, Recording kc w.file index w'.file data data' o keyId
  · obtain ⟨index, data, data', o, keyId, hrecording⟩ := hmade
    exact ⟨_, .recorded h hrecording⟩
  · refine ⟨_, .raised h fun index data data' o keyId hrecording => hmade ?_⟩
    exact ⟨index, data, data', o, keyId, hrecording⟩

theorem composed_of_snd {x : WalletM α} (h : ∀ w, (x.exec w).2 = w) : Composed kc x :=
  fun w => ⟨[], by rw [h w]; exact .nil w⟩

theorem composed_updateWallet (config : WalletConfig) (attempt : Attempt) (coins : List OutputData) :
    Composed kc (Sender.updateWallet config attempt coins) :=
  composed_of_operation fun w => by
    rcases h : (Sender.updateWallet config attempt coins).exec w with ⟨e | ⟨⟨⟩⟩, w'⟩
    · exact ⟨_, .lockRaised h⟩
    · exact ⟨_, .completed (.locked h)⟩

theorem composed_rollbackWallet (config : WalletConfig) (attempt : Attempt) (keyId : Identifier) :
    Composed kc (Sender.rollbackWallet config attempt keyId) :=
  composed_of_operation fun w => by
    rcases h : (Sender.rollbackWallet config attempt keyId).exec w with ⟨e | ⟨⟨⟩⟩, w'⟩
    · by_cases hpresent : Present keyId.hexValue w'.file
      · exact ⟨_, .rollbackRaised h hpresent⟩
      · exact ⟨_, .removeRaised h hpresent⟩
    · exact ⟨_, .completed (.removed h)⟩

theorem composed_refreshOutputs (script : Checker.RefreshScript) (config : WalletConfig) :
    Composed kc (Checker.refreshOutputs script config kc) :=
  composed_of_operation fun w => by
    rcases h : (Checker.refreshOutputs script config kc).exec w with ⟨e | b, w'⟩
    · exact ⟨_, .refreshRaised h⟩
    · exact ⟨_, .completed (.refreshed h)⟩

/-- A transaction with one output is built as one operation. -/
theorem composed_buildSendTx (script : Sender.SendScript) (config : WalletConfig)
    (args : Sender.SendArgs) (height : UInt64) :
    Composed kc (Sender.buildSendTx script config kc args height) := by
  refine composed_bind (composed_of_snd fun w => readWallet_snd _ _ w) fun coins w => ?_
  rw [WalletM.exec_bind]
  rcases hparts : (Sender.inputsAndChange config kc script.addChange coins args.amount).exec w with
    ⟨e | ⟨parts, changeKey⟩, w'⟩
  · obtain ⟨event, hstep⟩ := operation_of_raised (.send hparts)
    exact ⟨_, .single hstep⟩
  · simp only [WalletM.exec_bind, WalletM.exec_lift]
    rcases hbuild : Build.transaction (parts ++ [Build.withLockHeight height]) kc with
      e | ⟨tx, blind⟩
    · obtain ⟨change, inputs, data, data', -, hread, -⟩ := SenderLemmas.inputsAndChange_eq_ok hparts
      exact ⟨_, .single (.completed (.unbuilt hread hparts hbuild))⟩
    · obtain ⟨change, inputs, data, data', -, hread, -, rfl, -⟩ :=
        SenderLemmas.inputsAndChange_eq_ok hparts
      obtain ⟨out, hout, -⟩ := outputs_of_sendParts hbuild
      exact ⟨_, .single (.completed (.sent hread hparts hbuild hout))⟩

theorem composed_dispatch (script : Sender.SendScript) (config : WalletConfig) (dest : String)
    (partialTx : PartialTx) (coins : List OutputData) (changeKey : Identifier) :
    Composed kc (Sender.dispatch env script config dest partialTx coins changeKey) := by
  unfold Sender.dispatch
  split
  · refine composed_bind (composed_updateWallet _ _ _) fun _ => ?_
    exact composed_of_operation fun w => ⟨_, .talked rfl⟩
  · split
    · refine composed_orElse (composed_bind ?_ fun _ => composed_updateWallet _ _ _)
        fun _ => composed_rollbackWallet _ _ _
      refine composed_of_operation fun w => ⟨_, .talked ?_⟩
      cases hdelivery : script.delivery <;> rfl
    · exact composed_of_snd fun _ => rfl

/-- A payment that is received is one operation. -/
theorem composed_receiveTransaction (config : WalletConfig) (attempt : Attempt) (amount : UInt64)
    (blinding : BlindingFactor env.secp) (tx : Transaction) :
    Composed kc (WalletReceiver.receiveTransaction config kc attempt amount blinding tx) :=
  composed_of_operation fun w => by
    rcases h : (WalletReceiver.receiveTransaction config kc attempt amount blinding tx).exec w with
      ⟨e | txFinal, w'⟩
    · exact operation_of_raised (.receive h)
    · obtain ⟨data, data', keyId, derivation, blind, hread, -, hbuild, -⟩ :=
        ReceiverLemmas.receiveTransaction_eq_ok h
      obtain ⟨out, hout, -⟩ := outputs_of_received hbuild
      exact ⟨_, .completed (.received hread h hout)⟩

/-- A reward under a new key is one operation. -/
theorem composed_receiveCoinbase (config : WalletConfig) (attempt : Attempt) (fees height : UInt64) :
    Composed kc (WalletReceiver.receiveCoinbase config kc attempt ⟨fees, height, none⟩) :=
  composed_of_operation fun w => by
    rcases h : (WalletReceiver.receiveCoinbase config kc attempt ⟨fees, height, none⟩).exec w with
      ⟨e | ⟨out, kern, blockFees⟩, w'⟩
    · exact operation_of_raised (.reward h)
    · obtain ⟨data, data', keyId, derivation, hread, -⟩ := ReceiverLemmas.receiveCoinbase_eq_ok h
      exact ⟨_, .completed (.rewarded hread h)⟩

/-- A send is a run of operations. -/
theorem run_issueSendTx (script : Sender.SendScript) (config : WalletConfig)
    (args : Sender.SendArgs) (w : World) : ∃ history, Run (Operation kc) w history
      ((Sender.issueSendTx script config kc args).exec w).2 := by
  refine composed_bind (composed_refreshOutputs _ _) (fun _ => ?_) w
  refine composed_bind (composed_of_snd fun _ => rfl) fun height => ?_
  exact composed_bind (composed_buildSendTx _ _ _ _) fun _ => composed_dispatch _ _ _ _ _ _

end Composed

/-! ## Sends over pairs -/

namespace Operation

/-- The world with this wallet. -/
def pairStored (data : WalletData) : World := ⟨.stored data, false, [], []⟩

/-- The wallet of pairs with the change of a send from its first coin. -/
def pairChanged (data : WalletData) (change : UInt64) : WalletData :=
  match Sender.addChange pairSender change data with
  | .ok (_, data') => data'
  | .error _ => data

/-- The key id of an index. -/
def pairKeyId (n : UInt32) : Identifier := ⟨ofNat 10 (n.toNat + 6)⟩

/-- The commitment of a value under the key of an index. -/
def pairCommit (value : UInt64) (n : UInt32) : Commitment := ⟨Pairs.save value.toNat (n.toNat + 6)⟩

/-- A coin of ten million under one index covers the amount, and the change goes to another one. -/
def PairSend (data : WalletData) (coin : UInt32) (amount change : UInt64) (n : UInt32) : Prop :=
  Sender.fundsAndInputs pairSender [pairCoin coin 10000000] amount
      = .ok (change, [(10000000, pairKeyId coin)]) ∧
    Sender.addChange pairSender change data = .ok (pairKeyId n, pairChanged data change) ∧
    (Build.transaction (SenderLemmas.sendParts [pairCoin coin 10000000] [(10000000, pairKeyId coin)]
      change (pairKeyId n) ++ [Build.withLockHeight 3]) pairSender).isOk = true ∧
    pairSender.commit change (pairKeyId n) = .ok (pairCommit change n) ∧
    data.nextChild pairSender.rootKeyId = n

instance decidablePairSend (data : WalletData) (coin : UInt32) (amount change : UInt64)
    (n : UInt32) : Decidable (PairSend data coin amount change n) :=
  inferInstanceAs (Decidable (_ ∧ _ ∧ _ ∧ _ ∧ _))

theorem sent_pairs {data : WalletData} {coin : UInt32} {amount change : UInt64} {n : UInt32}
    (h : PairSend data coin amount change n) :
    Completed pairSender (pairStored data) (.created n (pairCommit change n))
      (pairStored (pairChanged data change)) := by
  obtain ⟨hfunds, hadd, hbuild, hcommit, rfl⟩ := h
  exact sent_of_build ⟨""⟩ Attempt.calm rfl (fun h => nomatch (h : false = true)) hfunds rfl hadd hbuild hcommit

theorem removed_pairs (data : WalletData) (n : UInt32) :
    Completed pairSender (pairStored data) (.removed (pairKeyId n))
      (pairStored (data.deleteOutput (pairKeyId n))) := by
  have hremoved : (Sender.rollbackWallet ⟨""⟩ Attempt.calm (pairKeyId n)).exec (pairStored data)
      = (.ok (), pairStored (data.deleteOutput (pairKeyId n))) :=
    withWallet_of_none rfl (fun h => nomatch (h : false = true)) rfl rfl
  exact .removed hremoved

/-- A rollback that does not get the lock leaves the record of the change. -/
theorem rollbackRaised_pairs {data : WalletData} {n : UInt32} {o : OutputData}
    (h : data.outputs.lookup (pairKeyId n).hexValue = some o) :
    Operation pairSender (pairStored data) .other (pairStored data) := by
  have hraised : (Sender.rollbackWallet ⟨""⟩ ⟨false, some (.openLock .io)⟩ (pairKeyId n)).exec
      (pairStored data) = (.error lockFailed, pairStored data) := rfl
  exact .rollbackRaised hraised (satisfies_stored.mpr ⟨o, h⟩)

/-- The coin has the index of the change: the two keys cancel and no transaction can be built. -/
def PairUnbuilt (data : WalletData) (coin : UInt32) (amount change : UInt64) (n : UInt32) : Prop :=
  Sender.fundsAndInputs pairSender [pairCoin coin 10000000] amount
      = .ok (change, [(10000000, pairKeyId coin)]) ∧
    Sender.addChange pairSender change data = .ok (pairKeyId n, pairChanged data change) ∧
    (Build.transaction (SenderLemmas.sendParts [pairCoin coin 10000000] [(10000000, pairKeyId coin)]
      change (pairKeyId n) ++ [Build.withLockHeight 3]) pairSender).isOk = false ∧
    data.nextChild pairSender.rootKeyId = n

instance decidablePairUnbuilt (data : WalletData) (coin : UInt32) (amount change : UInt64)
    (n : UInt32) : Decidable (PairUnbuilt data coin amount change n) :=
  inferInstanceAs (Decidable (_ ∧ _ ∧ _ ∧ _))

theorem unbuilt_pairs {data : WalletData} {coin : UInt32} {amount change : UInt64} {n : UInt32}
    (h : PairUnbuilt data coin amount change n) :
    Completed pairSender (pairStored data) (.recorded n) (pairStored (pairChanged data change)) := by
  obtain ⟨hfunds, hadd, hbuild, rfl⟩ := h
  obtain ⟨e, hbuild⟩ := exists_error_of_isOk hbuild
  have hparts : (Sender.inputsAndChange ⟨""⟩ pairSender Attempt.calm [pairCoin coin 10000000]
      amount).exec (pairStored data) = _ :=
    SenderLemmas.exec_inputsAndChange rfl (fun h => nomatch (h : false = true)) hfunds rfl hadd
  exact .unbuilt rfl hparts hbuild

end Operation

end GrinDotnet
