import Byze.VerifyScript

/-! The witness of an input: the hash that a creator has signed under the hash
type of its caller, and the check of what the signer gives back. -/

namespace Byze

def standardScriptVerifyFlags : ScriptVerifyFlags := fun flag => flag ≠ .sigPushOnly

structure MutableTransactionSignatureCreator (h : Hashes) where
  checker : TxContext h
  nHashType : Int
  mdb_eq : checker.mdb = .fail

structure SignatureData where
  complete : Bool
  witness : Bool
  scriptSig : CScript
  scriptWitness : List Bytes
  deriving DecidableEq

/-- Signing for outputs that are not version 1 programs, from the keys at hand.
The signer is also asked where such a program is the script of a script hash. -/
structure LegacySigning (h : Hashes) where
  redeemScript : CScript → Option CScript
  produce : MutableTransactionSignatureCreator h → CScript → SignatureData → Option QuantumSignature →
    SignatureData

section
variable {h : Hashes} (oqs : OqsVerify) (ops : LegacyOps)

def verifiesStandard (ctx : TxContext h) (scriptSig scriptPubKey : CScript) (witness : List Bytes) : Bool :=
  match verifyScript h ops.toPubKeyOps standardScriptVerifyFlags (transactionSignatureChecker oqs ops ctx)
    scriptSig scriptPubKey (some witness) with
  | .ok _ => true
  | .error _ => false

/-- The hash under the caller's hash type, of which one byte is used. -/
def computeSchnorrSignatureHash (creator : MutableTransactionSignatureCreator h) : Option Uint256 :=
  match creator.checker.txdata with
  | none => none
  | some txdata =>
    if !txdata.bip341TaprootReady || !txdata.spentOutputsReady then none
    else
      let execdata := { ScriptExecutionData.empty with annexInit := true, annexPresent := false }
      match signatureHashSchnorr h execdata creator.checker.txTo creator.checker.nIn
        (UInt8.ofInt creator.nHashType) .taproot txdata .fail .unknownError with
      | .ok (hash, _) => some hash
      | .error _ => none

variable {m : Type → Type} [Monad m] (sign : Uint256 → Bytes → m (Option QuantumSignature))

def createQuantumSig (creator : MutableTransactionSignatureCreator h) (outputKey : Uint256) :
    m (Option QuantumSignature) :=
  match computeSchnorrSignatureHash creator with
  | none => pure none
  | some sighash => sign sighash outputKey.val

def witnessOf (signature : Option QuantumSignature) (scriptWitness : List Bytes) : List Bytes :=
  signature.elim scriptWitness fun s => [s.xmssSig, s.sphincsSig, s.dualPubkeyBundle]

def produceSignature (legacy : LegacySigning h) (creator : MutableTransactionSignatureCreator h)
    (fromPubKey : CScript) (sigdata : SignatureData) : m SignatureData :=
  if sigdata.complete then pure sigdata
  else
    match quantumProgramOf fromPubKey with
    | some outputKey => do
      let signature ← createQuantumSig sign creator outputKey
      let scriptWitness := witnessOf signature sigdata.scriptWitness
      pure { complete := signature.isSome &&
               verifiesStandard oqs ops creator.checker [] fromPubKey scriptWitness
             witness := true
             scriptSig := []
             scriptWitness := scriptWitness }
    | none =>
      match (legacy.redeemScript fromPubKey).bind quantumProgramOf with
      | some outputKey => do
        let signature ← createQuantumSig sign creator outputKey
        pure (legacy.produce creator fromPubKey sigdata signature)
      | none => pure (legacy.produce creator fromPubKey sigdata none)
end

/-- The hash type is a known one, and has an output to sign where it signs the
output of the input's own index. -/
def SelectsHash (tx : CTransaction) (nIn : Nat) (nHashType : Int) : Prop :=
  (UInt8.ofInt nHashType ≤ 0x03 ∨ UInt8.ofInt nHashType ≥ 0x81 ∧ UInt8.ofInt nHashType ≤ 0x83) ∧
    (UInt8.ofInt nHashType &&& sighashOutputMask = sighashSingle → nIn < tx.vout.length)

section
variable {h : Hashes}

theorem signatureHashSchnorr_taproot_isOk_iff {tx : CTransaction} {spent : List CTxOut} {force : Bool}
    {d : PrecomputedTransactionData} {nIn : Nat} {execdata : ScriptExecutionData} (t : UInt8)
    (mdb : MissingDataBehavior) (serror : ScriptError)
    (hd : PrecomputedTransactionData.init h tx spent force = some d)
    (hr : d.bip341TaprootReady = true) (hn : nIn < tx.vin.length) (hi : execdata.annexInit = true) :
    (∃ r, signatureHashSchnorr h execdata tx nIn t .taproot d mdb serror = .ok r) ↔
      (t ≤ 0x03 ∨ t ≥ 0x81 ∧ t ≤ 0x83) ∧
        (t &&& sighashOutputMask = sighashSingle → nIn < tx.vout.length) := by
  obtain ⟨hso, hspent, -⟩ := init_ready hd hr
  have hvin := List.getElem?_eq_getElem hn
  have hlength : nIn < d.spentOutputs.length := by
    rw [hspent, init_ready_length hd hr]
    exact hn
  have hout := List.getElem?_eq_getElem hlength
  by_cases h0 : t = sighashDefault
  · have hany : sighashDefault &&& sighashInputMask ≠ sighashAnyoneCanPay := by decide
    have hsingle : sighashAll ≠ sighashSingle := by decide
    have hmask : sighashDefault &&& sighashOutputMask ≠ sighashSingle := by decide
    have htype : sighashDefault ≤ 0x03 := by decide
    simp [signatureHashSchnorr, h0, hvin, hr, hso, hi, hany, hsingle, hmask, htype]
  by_cases ht : t ≤ 0x03 ∨ t ≥ 0x81 ∧ t ≤ 0x83
  · by_cases hs : t &&& sighashOutputMask = sighashSingle
    · by_cases hvout : nIn < tx.vout.length
      all_goals
        by_cases hany : t &&& sighashInputMask = sighashAnyoneCanPay
        · simp [signatureHashSchnorr, h0, hvin, hr, hso, ht, hi, hany, hout, hs, hvout]
        · simp [signatureHashSchnorr, h0, hvin, hr, hso, ht, hi, hany, hs, hvout]
    · by_cases hany : t &&& sighashInputMask = sighashAnyoneCanPay
      · simp [signatureHashSchnorr, h0, hvin, hr, hso, ht, hi, hany, hout, hs]
      · simp [signatureHashSchnorr, h0, hvin, hr, hso, ht, hi, hany, hs]
  · simp [signatureHashSchnorr, hvin, hr, hso, ht]

theorem computeSchnorrSignatureHash_isSome_iff (creator : MutableTransactionSignatureCreator h) :
    (computeSchnorrSignatureHash creator).isSome = true ↔ creator.checker.keyPathHash.isSome = true ∧
        SelectsHash creator.checker.txTo creator.checker.nIn creator.nHashType := by
  cases hd : creator.checker.txdata with
  | none => simp [computeSchnorrSignatureHash, TxContext.keyPathHash, hd]
  | some d =>
    obtain ⟨spent, force, hinit⟩ := creator.checker.txdata_init d hd
    cases hr : d.bip341TaprootReady with
    | false => simp [computeSchnorrSignatureHash, TxContext.keyPathHash, hd, hr]
    | true =>
      obtain ⟨hso, -⟩ := init_ready hinit hr
      let execdata := { ScriptExecutionData.empty with annexInit := true, annexPresent := false }
      have hok := signatureHashSchnorr_taproot_isOk_iff (UInt8.ofInt creator.nHashType) .fail .unknownError
        hinit hr creator.checker.nIn_lt (show execdata.annexInit = true from rfl)
      rw [SelectsHash, ← hok]
      cases hhash : signatureHashSchnorr h execdata creator.checker.txTo creator.checker.nIn
          (UInt8.ofInt creator.nHashType) .taproot d .fail .unknownError with
      | error e => simp [computeSchnorrSignatureHash, hd, hr, hso, execdata, hhash]
      | ok r => simp [computeSchnorrSignatureHash, TxContext.keyPathHash, hd, hr, hso, execdata, hhash]

theorem quantumProgramOf_eq (program : Uint256) :
    quantumProgramOf (op1 :: 0x20 :: program.val) = some program := by
  have hprog : isWitnessProgram (op1 :: 0x20 :: program.val) = some (1, program.val) := by
    simp [isWitnessProgram, program.2, decodeOpN, op1, op0, op16]
  simp only [quantumProgramOf, hprog, Option.bind_some, loadSized, dif_pos program.2]
  rfl

theorem verifiesStandard_iff (oqs : OqsVerify) (ops : LegacyOps) (ctx : TxContext h)
    (scriptSig scriptPubKey : CScript) (witness : List Bytes) :
    verifiesStandard oqs ops ctx scriptSig scriptPubKey witness = true ↔
      verifyScript h ops.toPubKeyOps standardScriptVerifyFlags (transactionSignatureChecker oqs ops ctx)
        scriptSig scriptPubKey (some witness) = .ok () := by
  rw [verifiesStandard]
  split
  · rename_i u heq
    simp [heq]
  · rename_i e heq
    simp [heq]

theorem verifiesStandard_cases {oqs : OqsVerify} {ops : LegacyOps} {ctx : TxContext h}
    {scriptSig scriptPubKey : CScript} {witness : List Bytes}
    (hv : verifiesStandard oqs ops ctx scriptSig scriptPubKey witness = true) :
    scriptSig = [] ∧ (quantumProgramOf scriptPubKey).isSome = true ∧ ctx.keyPathHash.isSome = true := by
  obtain ⟨hsig, program, hp, rfl, -, -, -, -, -, -, hash, hhash, -⟩ :=
    (verifyScript_spends_iff oqs ops ctx _ _ _ rfl rfl).mp ((verifiesStandard_iff ..).mp hv)
  refine ⟨hsig, ?_, by rw [hhash]; rfl⟩
  rw [quantumProgramOf_eq ⟨program, hp⟩]
  rfl
end

end Byze
