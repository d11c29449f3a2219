import GrinDotnet.Core.Wire
import GrinDotnet.Wallet.Receiver

/-!
# The payment exchange

A sender builds half of a transaction, the receiver completes it. Both sides compute the fee, both
write a record, and the transaction travels as hex with its inputs reordered.

Results:
1. `inputsAndChange_eq`: the sender's wallet gains the change record.
2. `senderHalf_of_build`: what the sender's half consists of.
3. `received_validates`: the completed transaction passes validation.
4. `payment_completes`: the whole exchange, for every number of coins and every amount.
-/

namespace GrinDotnet

open BigEndian Outcome WorldLemmas WalletLemmas BuildLemmas

variable {env : Env} {E : Type*} [AddCommGroup E]

namespace Exchange

/-- The key of the next child of a wallet. -/
def nextKey (kc : Keychain env) (walletData : WalletData) : Except Exn (SecretKey env.secp) := do
  let keyId ← kc.deriveKeyId (walletData.nextChild kc.rootKeyId)
  kc.derivedKey keyId

/-- The key of a coin. -/
def coinKey (kc : Keychain env) (coin : OutputData) : Except Exn (SecretKey env.secp) := do
  let keyId ← kc.deriveKeyId coin.nChild
  kc.derivedKey keyId

/-- The keys of a list of coins. -/
def coinKeys (kc : Keychain env) (coins : List OutputData) :
    Except Exn (List (SecretKey env.secp)) :=
  coins.mapM (coinKey kc)

/-- The commitments a list of coins stands for. -/
def coinCommitments (P : Pedersen env.secp E) (coins : List OutputData)
    (keys : List (SecretKey env.secp)) : List Commitment :=
  List.zipWith P.commitment (coins.map (·.value)) keys

/-- A wallet that can take one more record: its file can be read, no lock is held, the next index is
one a lookup reaches and its key id is not recorded. -/
structure Ready (kc : Keychain env) (w : World) (walletData : WalletData) : Prop where
  derivable : kc.Derivable
  read : w.file.readOrCreate = .ok walletData
  free : w.lockHeld = false
  next_le : (walletData.lastChild kc.rootKeyId).toNat + 1 ≤ maxDerivations
  fresh : ∀ id, kc.deriveKeyId (walletData.nextChild kc.rootKeyId) = .ok id →
    walletData.outputs.lookup id.hexValue = none

/-- The world after a record was added to a wallet. -/
def recorded (w : World) (walletData : WalletData) : World :=
  { w with file := .stored walletData, lockHeld := false }

namespace Ready

variable {kc : Keychain env} {w : World} {walletData : WalletData}

theorem toNat_nextChild (h : Ready kc w walletData) :
    (walletData.nextChild kc.rootKeyId).toNat = (walletData.lastChild kc.rootKeyId).toNat + 1 := by
  have hle : (walletData.lastChild kc.rootKeyId).toNat + 1 ≤ 10000 := h.next_le
  have hone : (1 : UInt32).toNat = 1 := rfl
  rw [WalletData.nextChild, UInt32.toNat_add, hone]
  omega

/-- The next key exists, and a record under it can be added. -/
theorem exists_next (h : Ready kc w walletData) (o : OutputData) :
    ∃ id key, kc.deriveKeyId (walletData.nextChild kc.rootKeyId) = .ok id ∧
      kc.derivedKey id = .ok key ∧ nextKey kc walletData = .ok key ∧
      ∃ walletData', walletData.addOutput { o with keyId := id.hexValue } = .ok walletData' := by
  have htoNat := h.toNat_nextChild
  have hle := h.next_le
  obtain ⟨child, id, hid⟩ := h.derivable (walletData.nextChild kc.rootKeyId) (by omega) (by omega)
  have hkeyId := Keychain.deriveKeyId_eq_ok.mpr ⟨child, hid⟩
  obtain ⟨key, hkey⟩ := Keychain.derivedKey_ok h.derivable (by omega) (by omega) hkeyId
  obtain ⟨outputs, houtputs⟩ := Dictionary.exists_add { o with keyId := id.hexValue }
    (h.fresh id hkeyId)
  refine ⟨id, key, hkeyId, hkey, ?_, ⟨outputs⟩, addOutput_eq_ok_iff.mpr houtputs⟩
  rw [nextKey, hkeyId, ok_bind, hkey]

end Ready

/-! ## The sender -/

/-- Coins with reachable indices have key ids and keys. -/
theorem exists_coinInputs {kc : Keychain env} (hderivable : kc.Derivable) {coins : List OutputData}
    (hindex : ∀ c ∈ coins, 1 ≤ c.nChild.toNat ∧ c.nChild.toNat ≤ maxDerivations) :
    ∃ inputs keys, Sender.coinInputs kc coins = .ok inputs ∧ coinKeys kc coins = .ok keys ∧
      List.Forall₂ (fun c key => kc.derivedKey c.2 = .ok key) inputs keys ∧
      inputs.map Prod.fst = coins.map (·.value) := by
  induction coins with
  | nil => exact ⟨[], [], rfl, rfl, .nil, rfl⟩
  | cons coin coins ih =>
    obtain ⟨inputs, keys, hinputs, hkeys, hpairs, hvalues⟩ := ih fun c hc => hindex c (by simp [hc])
    obtain ⟨hone, hmax⟩ := hindex coin (by simp)
    obtain ⟨child, id, hid⟩ := hderivable coin.nChild hone hmax
    have hkeyId := Keychain.deriveKeyId_eq_ok.mpr ⟨child, hid⟩
    obtain ⟨key, hkey⟩ := Keychain.derivedKey_ok hderivable hone hmax hkeyId
    have hinput : Sender.coinInput kc coin = .ok (coin.value, id) := by
      rw [Sender.coinInput, hkeyId]
      rfl
    have hcoinKey : coinKey kc coin = .ok key := by rw [coinKey, hkeyId, ok_bind, hkey]
    exact ⟨(coin.value, id) :: inputs, key :: keys,
      mapM_eq_ok.mpr (.cons hinput (mapM_eq_ok.mp hinputs)),
      mapM_eq_ok.mpr (.cons hcoinKey (mapM_eq_ok.mp hkeys)), .cons hkey hpairs, by simp [hvalues]⟩

/-- Writing the change: the sender's wallet gains its record, and the parts are known. -/
theorem inputsAndChange_eq {kc : Keychain env} {w : World} {walletData : WalletData}
    (hready : Ready kc w walletData) {coins : List OutputData} (hne : coins ≠ [])
    {amount : UInt64} (htotal : exactSum (coins.map (·.value)) < 2 ^ 64)
    (hamount : amount.toNat ≤ exactSum (coins.map (·.value)))
    {inputs : List (UInt64 × Identifier)} (hinputs : Sender.coinInputs kc coins = .ok inputs)
    (config : WalletConfig) :
    ∃ change changeKey key walletData',
      change.toNat = exactSum (coins.map (·.value)) - amount.toNat ∧
      kc.derivedKey changeKey = .ok key ∧ nextKey kc walletData = .ok key ∧
      kc.deriveKeyId (walletData.nextChild kc.rootKeyId) = .ok changeKey ∧
      (Sender.inputsAndChange config kc Attempt.calm coins amount).exec w
        = (.ok (Build.withFee (Sender.sendFee coins)
            :: inputs.map (fun c => Build.input c.1 c.2) ++ [Build.output change changeKey],
            changeKey), recorded w walletData') ∧
      walletData.addOutput (Sender.changeOutput kc changeKey (walletData.nextChild kc.rootKeyId)
        change) = .ok walletData' := by
  obtain ⟨total, hsum, htoNat⟩ := aggregate_add (l := coins.map (·.value)) (by simpa using hne)
  rw [Nat.mod_eq_of_lt htotal] at htoNat
  have hle : amount ≤ total := UInt64.le_iff_toNat_le.mpr (htoNat ▸ hamount)
  have hfunds : Sender.fundsAndInputs kc coins amount = .ok (total - amount, inputs) := by
    rw [Sender.fundsAndInputs, hsum, ok_bind, if_neg (UInt64.not_lt.mpr hle), hinputs]
    rfl
  obtain ⟨changeKey, key, hkeyId, hkey, hnext, walletData', hadd⟩ := hready.exists_next
    (Sender.changeOutput kc Identifier.zero (walletData.nextChild kc.rootKeyId) (total - amount))
  have hrecord : walletData.addOutput (Sender.changeOutput kc changeKey
      (walletData.nextChild kc.rootKeyId) (total - amount)) = .ok walletData' := hadd
  have hclosure : Sender.addChange kc (total - amount) walletData = .ok (changeKey, walletData') := by
    simp only [Sender.addChange, hkeyId, ok_bind, hrecord, pure_eq_ok]
  refine ⟨total - amount, changeKey, key, walletData', ?_, hkey, hnext, hkeyId, ?_, hadd⟩
  · rw [UInt64.toNat_sub_of_le _ _ hle, htoNat]
  · have hfree : w.lockHeld = true → Attempt.calm.finalizer = true := by simp [hready.free]
    exact SenderLemmas.exec_inputsAndChange rfl hfree hfunds hready.read hclosure

/-- The sender's half of a transaction: the coins go in, the change comes out. -/
structure Half (P : Pedersen env.secp E) (commitments : List Commitment) (change : UInt64)
    (changeKey : SecretKey env.secp) (fee lockHeight : UInt64) (tx : Transaction) : Prop where
  inputs : (tx.inputs.map (·.commitment)).Perm commitments
  outputs : ∃ out, tx.outputs = [out] ∧ BuiltOutput P change changeKey out
  fee : tx.fee = fee
  lockHeight : tx.lockHeight = lockHeight
  excessSig : tx.excessSig.length ≤ 72

/-- The sender's parts build into half of a transaction, signed with the change's key less the
coins' keys. -/
theorem senderHalf_of_build (P : Honest env.secp E) {kc : Keychain env}
    {coins : List OutputData} {inputs : List (UInt64 × Identifier)}
    {keys : List (SecretKey env.secp)} {changeId : Identifier} {changeKey : SecretKey env.secp}
    (hpairs : List.Forall₂ (fun c key => kc.derivedKey c.2 = .ok key) inputs keys)
    (hvalues : inputs.map Prod.fst = coins.map (·.value))
    (hchange : kc.derivedKey changeId = .ok changeKey)
    (hne : Secp256K1.blindTotal [changeKey] keys ≠ 0) (fee change lockHeight : UInt64) :
    ∃ tx blind, Build.transaction (Build.withFee fee ::
          inputs.map (fun (c : UInt64 × Identifier) => Build.input c.1 c.2)
        ++ [Build.output change changeId] ++ [Build.withLockHeight lockHeight]) kc
        = .ok (tx, blind) ∧
      Half P.toPedersen (coinCommitments P.toPedersen coins keys) change changeKey fee lockHeight tx ∧
      blind.key.residue = Secp256K1.blindTotal [changeKey] keys := by
  let txInputs : List Input :=
    List.zipWith (fun (c : UInt64 × Identifier) key => ⟨P.commitment c.1 key⟩) inputs keys
  let ctx : Context env :=
    ⟨kc, ⟨txInputs, [], fee, 0, []⟩, ⟨[], inputs.map Prod.snd, [], []⟩⟩
  have hctx : ctx.keychain.derivedKey changeId = .ok changeKey := hchange
  obtain ⟨out, hout, houtput⟩ := output_eq P hctx change
  have hrun : (Build.withFee fee ::
        inputs.map (fun (c : UInt64 × Identifier) => Build.input c.1 c.2)
      ++ [Build.output change changeId] ++ [Build.withLockHeight lockHeight]).foldlM Build.step
        ⟨kc, Transaction.empty, BlindSum.new⟩
      = .ok ⟨kc, ⟨txInputs, [out], fee, lockHeight, []⟩,
          ⟨[changeId], inputs.map Prod.snd, [], []⟩⟩ := by
    have hfee : Build.step ⟨kc, Transaction.empty, BlindSum.new⟩ (Build.withFee fee)
        = .ok ⟨kc, Transaction.empty.withFee fee, (BlindSum.new : BlindSum env.secp)⟩ := rfl
    rw [List.append_assoc, List.foldlM_append, List.foldlM_cons, hfee, ok_bind,
      foldlM_inputs P.toPedersen hpairs, ok_bind, List.foldlM_append, List.foldlM_cons]
    simp only [Transaction.withFee, Transaction.empty, BlindSum.new, List.nil_append]
    rw [show Build.step _ _ = _ from houtput, ok_bind]
    rfl
  have hpos : [changeId].mapM kc.derivedKey = .ok [changeKey] := mapM_eq_ok.mpr (.cons hchange .nil)
  have hneg : (inputs.map Prod.snd).mapM kc.derivedKey = .ok keys :=
    mapM_eq_ok.mpr (List.forall₂_map_left_iff.mpr hpairs)
  obtain ⟨blind, excessSig, htx, hblind, hlen, -⟩ :=
    transaction_eq P hrun hpos hneg (by simpa using hne)
  refine ⟨{ (⟨txInputs, [out], fee, lockHeight, []⟩ : Transaction) with excessSig }, blind, htx,
    ⟨?_, ⟨out, rfl, hout⟩, rfl, rfl, hlen⟩, by simpa using hblind⟩
  simp only [txInputs]
  rw [coinCommitments, ← hvalues, List.zipWith_map_left, List.map_zipWith]

/-! ## The wire -/

/-- Half of a transaction survives the wire. -/
theorem read_build (P : Pedersen env.secp E) {commitments : List Commitment} {change : UInt64}
    {changeKey : SecretKey env.secp} {fee lockHeight : UInt64} {tx : Transaction}
    (hhalf : Half P commitments change changeKey fee lockHeight tx)
    (hlen : commitments.length ≤ 300000) (amount : UInt64) (blind : BlindingFactor env.secp) :
    ∃ tx', readPartialTx env (buildPartialTx env amount blind tx) = .ok (amount, blind, tx') ∧
      Half P commitments change changeKey fee lockHeight tx' := by
  obtain ⟨out, hout, hbuilt⟩ := hhalf.outputs
  have hinputs : tx.inputs.length = commitments.length := by
    simpa using hhalf.inputs.length_eq
  have hwritable : tx.Writable := by
    refine ⟨le_trans hhalf.excessSig (by decide), ?_, ?_, ?_⟩
    · exact le_trans (hinputs ▸ hlen) (by decide)
    · rw [hout]
      show 1 ≤ maxArrayLength
      decide
    · intro o ho
      rw [hout, List.mem_singleton] at ho
      subst ho
      exact ⟨hbuilt.switchCommitHash, hbuilt.proof_length, hbuilt.plen⟩
  refine ⟨tx.sorted env, ?_, ?_, ⟨out, ?_, hbuilt⟩, hhalf.fee, hhalf.lockHeight, hhalf.excessSig⟩
  · simp only [readPartialTx, buildPartialTx, fromHex_toHex, ok_bind, SecretKey.fromSlice_value,
      Transaction.deserialize_serVec env hwritable, pure_eq_ok]
  · exact ((orderByHash_perm env _ _).map _).trans hhalf.inputs
  · rw [Transaction.sorted, hout]
    rfl

/-! ## The receiver -/

/-- The completed transaction balances: change, received amount and fee are what the coins held. -/
theorem excess_received (P : Pedersen env.secp E) {coins : List OutputData}
    {keys : List (SecretKey env.secp)} (hlen : coins.length = keys.length)
    {change amount fee lockHeight : UInt64} {changeKey receiverKey : SecretKey env.secp}
    {tx : Transaction} {out : Output}
    (hhalf : Half P (coinCommitments P coins keys) change changeKey fee lockHeight tx)
    (hout : BuiltOutput P (amount - fee) receiverKey out) (hfee : fee ≤ amount)
    (hchange : change.toNat + amount.toNat = exactSum (coins.map (·.value))) :
    P.excess (tx.withOutput out) fee.toNat
      = P.base (Secp256K1.blindTotal [changeKey, receiverKey] keys) := by
  obtain ⟨changeOut, hchangeOut, hbuilt⟩ := hhalf.outputs
  have hamount : (amount - fee).toNat + fee.toNat = amount.toNat := by
    rw [UInt64.toNat_sub_of_le _ _ hfee]
    exact Nat.sub_add_cancel (UInt64.le_iff_toNat_le.mp hfee)
  have hsplit : exactSum (coins.map (·.value)) = change.toNat + (amount - fee).toNat + fee.toNat := by
    omega
  have hexcess : P.excess (tx.withOutput out) fee.toNat
      = P.pointSum ((tx.outputs ++ [out]).map (·.commit)) + (fee.toNat : ℤ) • P.H
        - P.pointSum (tx.inputs.map (·.commitment)) := rfl
  rw [hexcess, pointSum_perm P hhalf.inputs, coinCommitments,
    pointSum_zipWith P (by simpa using hlen), hsplit, hchangeOut, List.map_append,
    P.pointSum_append, List.map_singleton, List.map_singleton, P.pointSum_cons, P.pointSum_cons,
    P.pointSum_nil, hbuilt.commit, hout.commit, P.point_commitment, P.point_commitment,
    Secp256K1.blindTotal, map_sub, List.map_cons, List.map_singleton, List.sum_cons,
    List.sum_singleton, map_add, P.base_residue, P.base_residue, add_nsmul, add_nsmul,
    natCast_zsmul]
  abel

/-- The fee of a send is even and small. -/
theorem sendFee_spec {coins : List OutputData}
    (hmany : coins.length ≤ Consensus.maxBlockInputs.toNat) :
    Sender.sendFee coins &&& 1 = 0 ∧ (Sender.sendFee coins).toNat < 2 ^ 63 := by
  have hfee : (Sender.sendFee coins).toNat = max 1 (9 - coins.length) * 1000000 :=
    FeeLemmas.toNat_txFee hmany
  have hone : (1 : UInt64).toNat = 1 := rfl
  have hzero : (0 : UInt64).toNat = 0 := rfl
  refine ⟨UInt64.toNat_inj.mp ?_, by omega⟩
  rw [UInt64.toNat_and, hone, hzero, Nat.and_one_is_mod, hfee]
  omega

/-- The receiver's parts build on a half: an output of its own, and a signature with all keys. -/
theorem received_build (P : Honest env.secp E) {kc : Keychain env} {id : Identifier}
    {changeKey receiverKey : SecretKey env.secp} (hkey : kc.derivedKey id = .ok receiverKey)
    {keys : List (SecretKey env.secp)} {blind : BlindingFactor env.secp}
    (hblind : blind.key.residue = Secp256K1.blindTotal [changeKey] keys)
    (hfinal : Secp256K1.blindTotal [changeKey, receiverKey] keys ≠ 0)
    (tx : Transaction) (value : UInt64) :
    ∃ (out : Output) (final : BlindingFactor env.secp) (excessSig : Bytes),
      BuiltOutput P.toPedersen value receiverKey out ∧
      Build.transaction [Build.initialTx tx, Build.withExcess blind, Build.output value id] kc
        = .ok ({ tx.withOutput out with excessSig }, final) ∧
      final.key.residue = Secp256K1.blindTotal [changeKey, receiverKey] keys ∧
      ∀ secp : Secp256K1, secp.caps = .commit →
        KernelSigned env.secp secp tx.fee tx.lockHeight excessSig
          ⟨P.save (final.key.scalar • P.G)⟩ := by
  let ctx : Context env := ⟨kc, tx, ⟨[], [], [blind], []⟩⟩
  have hctx : ctx.keychain.derivedKey id = .ok receiverKey := hkey
  obtain ⟨out, hout, houtput⟩ := output_eq P hctx value
  have hrun : [Build.initialTx tx, Build.withExcess blind, Build.output value id].foldlM Build.step
        ⟨kc, Transaction.empty, BlindSum.new⟩
      = .ok ⟨kc, tx.withOutput out, ⟨[id], [], [blind], []⟩⟩ := by
    have hinitial : Build.step ⟨kc, Transaction.empty, BlindSum.new⟩ (Build.initialTx tx)
        = .ok ⟨kc, tx, (BlindSum.new : BlindSum env.secp)⟩ := rfl
    have hexcess : Build.step ⟨kc, tx, BlindSum.new⟩ (Build.withExcess blind)
        = .ok ⟨kc, tx, (⟨[], [], [blind], []⟩ : BlindSum env.secp)⟩ := rfl
    rw [List.foldlM_cons, hinitial, ok_bind, List.foldlM_cons, hexcess, ok_bind, List.foldlM_cons,
      show Build.step _ _ = _ from houtput, ok_bind]
    rfl
  have htotal : Secp256K1.blindTotal [receiverKey, blind.key] []
      = Secp256K1.blindTotal [changeKey, receiverKey] keys := by
    simp only [Secp256K1.blindTotal, List.map_cons, List.map_nil, List.sum_cons, List.sum_nil,
      hblind]
    ring
  have hpos : [id].mapM kc.derivedKey = .ok [receiverKey] := mapM_eq_ok.mpr (.cons hkey .nil)
  have hneg : ([] : List Identifier).mapM kc.derivedKey = .ok [] := rfl
  have hne : Secp256K1.blindTotal [receiverKey, blind.key] [] ≠ 0 := htotal ▸ hfinal
  obtain ⟨final, excessSig, hbuild, hresidue, -, hsigned⟩ := transaction_eq P hrun hpos hneg hne
  exact ⟨out, final, excessSig, hout, hbuild, hresidue.trans htotal, hsigned⟩

section Complete

variable (P : Honest env.secp E) {coins : List OutputData} {keys : List (SecretKey env.secp)}
  (hlen : coins.length = keys.length) {change amount lockHeight : UInt64}
  {changeKey : SecretKey env.secp} {tx : Transaction}
  (hhalf : Half P.toPedersen (coinCommitments P.toPedersen coins keys) change changeKey
    (Sender.sendFee coins) lockHeight tx)

include hlen hhalf

theorem length_inputs_of_half : tx.inputs.length = coins.length := by
  have h := hhalf.inputs.length_eq
  simp only [List.length_map, coinCommitments, List.length_zipWith, ← hlen, min_self] at h
  exact h

/-- The receiver computes the sender's fee from the inputs and outputs it finds. -/
theorem recipientFee_of_half : WalletReceiver.recipientFee tx = Sender.sendFee coins := by
  obtain ⟨changeOut, hchangeOut, -⟩ := hhalf.outputs
  rw [WalletReceiver.recipientFee, length_inputs_of_half P hlen hhalf, hchangeOut]
  rfl

/-- A half with an output for the rest, signed with all keys, passes validation: everything but the
blinding cancels. -/
theorem validate_completed (hmany : coins.length ≤ Consensus.maxBlockInputs.toNat)
    (hfee : Sender.sendFee coins ≤ amount)
    (hchange : change.toNat + amount.toNat = exactSum (coins.map (·.value)))
    {receiverKey : SecretKey env.secp} {out : Output}
    (hout : BuiltOutput P.toPedersen (amount - Sender.sendFee coins) receiverKey out)
    {final : BlindingFactor env.secp}
    (hresidue : final.key.residue = Secp256K1.blindTotal [changeKey, receiverKey] keys)
    {excessSig : Bytes} {secp : Secp256K1} (hcaps : secp.caps = .commit)
    (hsigned : KernelSigned env.secp secp tx.fee tx.lockHeight excessSig
      ⟨P.save (final.key.scalar • P.G)⟩) :
    Transaction.validate env.secp secp { tx.withOutput out with excessSig } = .ok () := by
  obtain ⟨changeOut, hchangeOut, hbuilt⟩ := hhalf.outputs
  have hexcess : P.excess { tx.withOutput out with excessSig } (Sender.sendFee coins).toNat
      = final.key.scalar • P.G := by
    have hsum := excess_received P.toPedersen hlen hhalf hout hfee hchange
    rw [← hresidue, P.base_residue] at hsum
    exact hsum
  have hpoint : final.key.scalar • P.G ≠ 0 := by
    have h := P.key_ne_zero final.key 0
    simpa using h
  obtain ⟨heven, hsmall⟩ := sendFee_spec hmany
  have hproofs : ∀ o ∈ (tx.withOutput out).outputs, o.verifyProof env.secp = .ok () := by
    intro o ho
    simp only [Transaction.withOutput, hchangeOut, List.mem_append, List.mem_singleton] at ho
    rcases ho with rfl | rfl
    · exact hbuilt.proof
    · exact hout.proof
  have hint : (Sender.sendFee coins).toInt64.toInt = (Sender.sendFee coins).toNat := by
    rw [Word64.toInt_toInt64, if_pos hsmall]
  have hmin : (Sender.sendFee coins).toInt64 ≠ Int64.minValue := by
    intro h
    have hneg : Int64.minValue.toInt < 0 := by decide
    rw [← h, hint] at hneg
    omega
  have hsum : sumCommitments env.secp secp ({ tx.withOutput out with excessSig } : Transaction)
      = .ok ⟨P.save (final.key.scalar • P.G)⟩ := by
    refine (sumCommitments_eq_ok_iff P.toPedersen hcaps).mpr
      ⟨hproofs, tx.fee.toInt64, rfl, ?_, ?_, ?_⟩
    · rw [hhalf.fee]
      exact hmin
    · rw [hhalf.fee, hint, hexcess]
      exact hpoint
    · rw [hhalf.fee, hint, hexcess]
  refine Transaction.validate_eq_ok_iff.mpr ⟨?_, ?_, hproofs, _,
    Transaction.verifySig_eq_ok_iff.mpr ⟨_, hsum, hsigned, rfl⟩⟩
  · show tx.fee &&& 1 = 0
    rw [hhalf.fee]
    exact heven
  · show tx.inputs.length ≤ _
    rw [length_inputs_of_half P hlen hhalf]
    exact hmany

/-- The receiver completes the sender's half into a transaction that passes validation. -/
theorem received_validates {kc : Keychain env} {w : World} {walletData : WalletData}
    (hready : Ready kc w walletData) (hmany : coins.length ≤ Consensus.maxBlockInputs.toNat)
    (hfee : Sender.sendFee coins ≤ amount)
    (hchange : change.toNat + amount.toNat = exactSum (coins.map (·.value)))
    {blind : BlindingFactor env.secp}
    (hblind : blind.key.residue = Secp256K1.blindTotal [changeKey] keys)
    (hfinal : ∀ receiverKey, nextKey kc walletData = .ok receiverKey →
      Secp256K1.blindTotal [changeKey, receiverKey] keys ≠ 0)
    (config : WalletConfig) :
    ∃ id receiverKey walletData' out excessSig,
      nextKey kc walletData = .ok receiverKey ∧
      kc.deriveKeyId (walletData.nextChild kc.rootKeyId) = .ok id ∧
      BuiltOutput P.toPedersen (amount - Sender.sendFee coins) receiverKey out ∧
      walletData.addOutput (WalletReceiver.receivedOutput kc id (walletData.nextChild kc.rootKeyId)
        (amount - Sender.sendFee coins) false) = .ok walletData' ∧
      (WalletReceiver.receiveTransaction config kc Attempt.calm amount blind tx).exec w
        = (.ok { tx.withOutput out with excessSig }, recorded w walletData') ∧
      ∀ secp : Secp256K1, secp.caps = .commit →
        Transaction.validate env.secp secp { tx.withOutput out with excessSig } = .ok () := by
  obtain ⟨id, receiverKey, hkeyId, hkey, hnext, walletData', hadd⟩ := hready.exists_next
    (WalletReceiver.receivedOutput kc Identifier.zero (walletData.nextChild kc.rootKeyId)
      (amount - Sender.sendFee coins) false)
  have hrecord : walletData.addOutput (WalletReceiver.receivedOutput kc id
      (walletData.nextChild kc.rootKeyId) (amount - Sender.sendFee coins) false)
      = .ok walletData' := hadd
  have hclosure : WalletReceiver.addReceived kc (amount - Sender.sendFee coins) walletData
      = .ok ((id, walletData.nextChild kc.rootKeyId), walletData') := by
    simp only [WalletReceiver.addReceived, WalletReceiver.nextAvailableKey, hkeyId, ok_bind,
      pure_eq_ok, hrecord]
  obtain ⟨out, final, excessSig, hout, hbuild, hresidue, hsigned⟩ := received_build P hkey hblind
    (hfinal receiverKey hnext) tx (amount - Sender.sendFee coins)
  have hvalid : ∀ secp : Secp256K1, secp.caps = .commit →
      Transaction.validate env.secp secp { tx.withOutput out with excessSig } = .ok () :=
    fun secp hcaps => validate_completed P hlen hhalf hmany hfee hchange hout hresidue hcaps
      (hsigned secp hcaps)
  refine ⟨id, receiverKey, walletData', out, excessSig, hnext, hkeyId, hout, hadd, ?_, hvalid⟩
  have hfree : w.lockHeld = true → Attempt.calm.finalizer = true := by simp [hready.free]
  have hlift : ∀ w' : World, (WalletM.lift (Build.transaction [Build.initialTx tx,
      Build.withExcess blind, Build.output (amount - Sender.sendFee coins) id] kc)).exec w'
      = (.ok ({ tx.withOutput out with excessSig }, final), w') := fun w' => by
    rw [WalletM.exec_lift, hbuild]
  have hcheck : ∀ w' : World, (WalletM.lift (Transaction.validate env.secp kc.secp
      { tx.withOutput out with excessSig })).exec w' = (.ok (), w') := fun w' => by
    rw [WalletM.exec_lift, hvalid kc.secp kc.caps_commit]
  have hrecipient := recipientFee_of_half P hlen hhalf
  have hagree : ¬ WalletReceiver.recipientFee tx ≠ tx.fee := by simp [hrecipient, hhalf.fee]
  simp only [WalletReceiver.receiveTransaction]
  rw [if_neg hagree, hrecipient,
    WalletM.exec_bind_of_ok (withWallet_of_none rfl hfree hready.read hclosure),
    WalletM.exec_bind_of_ok (hlift _), WalletM.exec_bind_of_ok (hcheck _)]
  rfl

end Complete

/-! ## The whole exchange -/

/-- A completed payment: it spends the coins, creates the change and the receiver's output, carries
the fee and the lock height, and passes validation. -/
structure Completed (P : Pedersen env.secp E) (commitments : List Commitment)
    (change : UInt64) (changeKey : SecretKey env.secp) (received : UInt64)
    (receiverKey : SecretKey env.secp) (fee lockHeight : UInt64) (tx : Transaction) : Prop where
  inputs : (tx.inputs.map (·.commitment)).Perm commitments
  outputs : ∃ changeOut out, tx.outputs = [changeOut, out] ∧
    BuiltOutput P change changeKey changeOut ∧ BuiltOutput P received receiverKey out
  fee : tx.fee = fee
  lockHeight : tx.lockHeight = lockHeight
  valid : ∀ secp : Secp256K1, secp.caps = .commit → tx.validate env.secp secp = .ok ()

/-- A payment goes through: the sender's parts build, the transaction survives the wire, the
receiver completes it, and both wallets hold the record of their output. -/
theorem payment_completes (P : Honest env.secp E) {sender receiver : Keychain env}
    {ws wr : World} {senderData receiverData : WalletData}
    (hsender : Ready sender ws senderData) (hreceiver : Ready receiver wr receiverData)
    {coins : List OutputData} (hne : coins ≠ [])
    (hmany : coins.length ≤ Consensus.maxBlockInputs.toNat)
    (hindex : ∀ c ∈ coins, 1 ≤ c.nChild.toNat ∧ c.nChild.toNat ≤ maxDerivations)
    (htotal : exactSum (coins.map (·.value)) < 2 ^ 64)
    {amount : UInt64} (hfee : Sender.sendFee coins ≤ amount)
    (hamount : amount.toNat ≤ exactSum (coins.map (·.value)))
    (hblind : ∀ keys changeKey, coinKeys sender coins = .ok keys →
      nextKey sender senderData = .ok changeKey → Secp256K1.blindTotal [changeKey] keys ≠ 0)
    (hfinal : ∀ keys changeKey receiverKey, coinKeys sender coins = .ok keys →
      nextKey sender senderData = .ok changeKey → nextKey receiver receiverData = .ok receiverKey →
      Secp256K1.blindTotal [changeKey, receiverKey] keys ≠ 0)
    (lockHeight : UInt64) (senderConfig receiverConfig : WalletConfig) :
    ∃ keys changeId changeKey change senderData' parts tx blind,
      coinKeys sender coins = .ok keys ∧ nextKey sender senderData = .ok changeKey ∧
      change.toNat = exactSum (coins.map (·.value)) - amount.toNat ∧
      senderData.addOutput (Sender.changeOutput sender changeId
        (senderData.nextChild sender.rootKeyId) change) = .ok senderData' ∧
      (Sender.inputsAndChange senderConfig sender Attempt.calm coins amount).exec ws
        = (.ok (parts, changeId), recorded ws senderData') ∧
      Build.transaction (parts ++ [Build.withLockHeight lockHeight]) sender = .ok (tx, blind) ∧
      ∃ tx', readPartialTx env (buildPartialTx env amount blind tx) = .ok (amount, blind, tx') ∧
      ∃ id receiverKey receiverData' txFinal,
        nextKey receiver receiverData = .ok receiverKey ∧
        receiverData.addOutput (WalletReceiver.receivedOutput receiver id
          (receiverData.nextChild receiver.rootKeyId) (amount - Sender.sendFee coins) false)
          = .ok receiverData' ∧
        (WalletReceiver.receiveTransaction receiverConfig receiver Attempt.calm amount blind tx').exec
          wr = (.ok txFinal, recorded wr receiverData') ∧
        Completed P.toPedersen (coinCommitments P.toPedersen coins keys) change changeKey
          (amount - Sender.sendFee coins) receiverKey (Sender.sendFee coins) lockHeight txFinal := by
  obtain ⟨inputs, keys, hinputs, hkeys, hpairs, hvalues⟩ :=
    exists_coinInputs hsender.derivable hindex
  have hlen : coins.length = keys.length := (mapM_eq_ok.mp hkeys).length_eq
  obtain ⟨change, changeId, changeKey, senderData', hchange, hchangeKey, hnext, -, hparts, hadd⟩ :=
    inputsAndChange_eq hsender hne htotal hamount hinputs senderConfig
  obtain ⟨tx, blind, hbuild, hhalf, hresidue⟩ := senderHalf_of_build P hpairs hvalues hchangeKey
    (hblind keys changeKey hkeys hnext) (Sender.sendFee coins) change lockHeight
  have hcommits : (coinCommitments P.toPedersen coins keys).length ≤ 300000 := by
    rw [coinCommitments, List.length_zipWith, List.length_map, ← hlen, min_self]
    exact hmany
  obtain ⟨tx', hread, hhalf'⟩ := read_build P.toPedersen hhalf hcommits amount blind
  obtain ⟨id, receiverKey, receiverData', out, excessSig, hreceiverKey, -, hout, hreceived, hexec,
    hvalid⟩ := received_validates P hlen hhalf' hreceiver hmany hfee (by omega) hresidue
      (fun receiverKey h => hfinal keys changeKey receiverKey hkeys hnext h) receiverConfig
  obtain ⟨changeOut, hchangeOut, hbuilt⟩ := hhalf'.outputs
  refine ⟨keys, changeId, changeKey, change, senderData', _, tx, blind, hkeys, hnext, hchange, hadd,
    hparts, hbuild, tx', hread, id, receiverKey, receiverData',
    { tx'.withOutput out with excessSig }, hreceiverKey, hreceived, hexec,
    ⟨hhalf'.inputs, ⟨changeOut, out, ?_, hbuilt, hout⟩, hhalf'.fee, hhalf'.lockHeight, hvalid⟩⟩
  simp [Transaction.withOutput, hchangeOut]

/-! ### Over pairs -/

/-- A receiver over pairs. -/
def pairReceiver : Keychain Pairs.env := Pairs.keychain 7 (by decide)

/-- A coin of ten million pays nine million, of which the receiver keeps one. -/
theorem payment_completes_pairs :
    ∃ keys changeId changeKey change senderData' parts tx blind,
      coinKeys pairSender [pairCoin 1 10000000] = .ok keys ∧ nextKey pairSender pairWallet = .ok changeKey ∧
      change.toNat = exactSum [(10000000 : UInt64)] - (9000000 : UInt64).toNat ∧
      pairWallet.addOutput (Sender.changeOutput pairSender changeId
        (pairWallet.nextChild pairSender.rootKeyId) change) = .ok senderData' ∧
      (Sender.inputsAndChange ⟨""⟩ pairSender Attempt.calm [pairCoin 1 10000000] 9000000).exec
          ⟨.stored pairWallet, false, [], []⟩
        = (.ok (parts, changeId), recorded ⟨.stored pairWallet, false, [], []⟩ senderData') ∧
      Build.transaction (parts ++ [Build.withLockHeight 3]) pairSender = .ok (tx, blind) ∧
      ∃ tx', readPartialTx Pairs.env (buildPartialTx Pairs.env 9000000 blind tx)
          = .ok (9000000, blind, tx') ∧
      ∃ id receiverKey receiverData' txFinal,
        nextKey pairReceiver WalletData.new = .ok receiverKey ∧
        WalletData.new.addOutput (WalletReceiver.receivedOutput pairReceiver id
          (WalletData.new.nextChild pairReceiver.rootKeyId) (9000000 - Sender.sendFee [pairCoin 1 10000000])
          false) = .ok receiverData' ∧
        (WalletReceiver.receiveTransaction ⟨""⟩ pairReceiver Attempt.calm 9000000 blind tx').exec
          ⟨.absent, false, [], []⟩
          = (.ok txFinal, recorded ⟨.absent, false, [], []⟩ receiverData') ∧
        Completed Pairs.pedersen (coinCommitments Pairs.pedersen [pairCoin 1 10000000] keys) change changeKey
          (9000000 - Sender.sendFee [pairCoin 1 10000000]) receiverKey (Sender.sendFee [pairCoin 1 10000000]) 3
          txFinal := by
  have hcoinKeys : coinKeys pairSender [pairCoin 1 10000000]
      = .ok [Pairs.secretKey 7 (by decide)] := by decide +kernel
  have hchangeKey : nextKey pairSender pairWallet
      = .ok (Pairs.secretKey 9 (by decide)) := by decide +kernel
  have hreceiverKey : nextKey pairReceiver WalletData.new
      = .ok (Pairs.secretKey 9 (by decide)) := by decide +kernel
  have hchangeId : pairSender.deriveKeyId (pairWallet.nextChild pairSender.rootKeyId)
      = .ok ⟨ofNat 10 9⟩ := by decide +kernel
  have hsender : Ready pairSender ⟨.stored pairWallet, false, [], []⟩ pairWallet :=
    { derivable := Pairs.derivable _
      read := rfl
      free := rfl
      next_le := by decide +kernel
      fresh := by
        rw [hchangeId]
        rintro id ⟨⟩
        decide +kernel }
  have hreceiver : Ready pairReceiver ⟨.absent, false, [], []⟩ WalletData.new :=
    { derivable := Pairs.derivable _
      read := rfl
      free := rfl
      next_le := by decide +kernel
      fresh := fun _ _ => rfl }
  have hamount : (9000000 : UInt64).toNat ≤ exactSum ([pairCoin 1 10000000].map (·.value)) := by decide +kernel
  have hfee : Sender.sendFee [pairCoin 1 10000000] ≤ 9000000 := by decide +kernel
  refine payment_completes Pairs.honest hsender hreceiver (List.cons_ne_nil (pairCoin 1 10000000) []) (by decide)
    (by decide +kernel) (by decide +kernel) hfee hamount ?_ ?_ 3 ⟨""⟩ ⟨""⟩
  · rw [hcoinKeys, hchangeKey]
    rintro _ _ ⟨⟩ ⟨⟩
    decide +kernel
  · rw [hcoinKeys, hchangeKey, hreceiverKey]
    rintro _ _ _ ⟨⟩ ⟨⟩ ⟨⟩
    decide +kernel

end Exchange

end GrinDotnet
