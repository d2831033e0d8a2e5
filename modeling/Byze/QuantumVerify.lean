import Byze.Interpreter

/-! Verification of the two signatures of a dual key, and the signature
checker of a transaction input. -/

namespace Byze

def xmssPubkeySize : Nat := 68
def sphincsPubkeySize : Nat := 32
def xmssSignatureSize : Nat := 2500
def sphincsSignatureSize : Nat := 7856
def dualPubkeyBundleSize : Nat := xmssPubkeySize + sphincsPubkeySize

structure OqsVerify where
  stflVerify : Bytes → Bytes → Bytes → Bool
  sigVerify : Bytes → Bytes → Bytes → Bool

def loadSized (size : Nat) (data : Bytes) : Option { b : Bytes // b.length = size } :=
  if h : data.length = size then some ⟨data, h⟩ else none

def quantumProgramOf (script : CScript) : Option Uint256 :=
  (isWitnessProgram script).bind fun p => if p.1 = 1 then loadSized 32 p.2 else none

abbrev XmssPublicKey := { b : Bytes // b.length = xmssPubkeySize }
abbrev SphincsPublicKey := { b : Bytes // b.length = sphincsPubkeySize }
abbrev XmssSignature := { b : Bytes // b.length = xmssSignatureSize }
abbrev SphincsSignature := { b : Bytes // b.length = sphincsSignatureSize }

structure QuantumSignature where
  xmssSig : Bytes
  sphincsSig : Bytes
  dualPubkeyBundle : Bytes
  deriving DecidableEq

def XmssPublicKey.verify (oqs : OqsVerify) (pk : XmssPublicKey) (message : Uint256)
    (signature : XmssSignature) : Bool := oqs.stflVerify message.val signature.val pk.val

def SphincsPublicKey.verify (oqs : OqsVerify) (pk : SphincsPublicKey) (message : Uint256)
    (signature : SphincsSignature) : Bool := oqs.sigVerify message.val signature.val pk.val

def verifyQuantumDualSignature (oqs : OqsVerify) (xmssSig sphincsSig dualPubkey : Bytes)
    (sighash : Uint256) : Bool :=
  if xmssSig.length ≠ xmssSignatureSize ∨ sphincsSig.length ≠ sphincsSignatureSize ∨
      dualPubkey.length ≠ dualPubkeyBundleSize then false
  else
    match loadSized xmssPubkeySize (dualPubkey.take xmssPubkeySize),
        loadSized sphincsPubkeySize (dualPubkey.drop xmssPubkeySize),
        loadSized xmssSignatureSize xmssSig, loadSized sphincsSignatureSize sphincsSig with
    | some xmssPubkey, some sphincsPubkey, some xmssSignature, some sphincsSignature =>
      XmssPublicKey.verify oqs xmssPubkey sighash xmssSignature &&
        SphincsPublicKey.verify oqs sphincsPubkey sighash sphincsSignature
    | _, _, _, _ => false

/-- Both signatures are well sized and verify for the keys of the bundle. -/
def DualSignatureValid (oqs : OqsVerify) (xmssSig sphincsSig dualPubkey : Bytes) (sighash : Uint256) : Prop :=
  xmssSig.length = xmssSignatureSize ∧ sphincsSig.length = sphincsSignatureSize ∧
    dualPubkey.length = dualPubkeyBundleSize ∧
    oqs.stflVerify sighash.val xmssSig (dualPubkey.take xmssPubkeySize) = true ∧
    oqs.sigVerify sighash.val sphincsSig (dualPubkey.drop xmssPubkeySize) = true

theorem verifyQuantumDualSignature_iff (oqs : OqsVerify) (xmssSig sphincsSig dualPubkey : Bytes)
    (sighash : Uint256) :
    verifyQuantumDualSignature oqs xmssSig sphincsSig dualPubkey sighash = true ↔
      DualSignatureValid oqs xmssSig sphincsSig dualPubkey sighash := by
  by_cases hs : xmssSig.length ≠ xmssSignatureSize ∨ sphincsSig.length ≠ sphincsSignatureSize ∨
      dualPubkey.length ≠ dualPubkeyBundleSize
  · simp only [verifyQuantumDualSignature, if_pos hs, Bool.false_eq_true, false_iff]
    rintro ⟨hx, hp, hd, -, -⟩
    rcases hs with h | h | h
    · exact h hx
    · exact h hp
    · exact h hd
  · push Not at hs
    obtain ⟨hx, hp, hd⟩ := hs
    have htake : (dualPubkey.take xmssPubkeySize).length = xmssPubkeySize := by
      simp [hd, dualPubkeyBundleSize]
    have hdrop : (dualPubkey.drop xmssPubkeySize).length = sphincsPubkeySize := by
      simp [hd, dualPubkeyBundleSize]
    simp [verifyQuantumDualSignature, DualSignatureValid, loadSized, hx, hp, htake, hdrop,
      XmssPublicKey.verify, SphincsPublicKey.verify]

/-- Elliptic-curve checks and the legacy signature hash, which the quantum
path never reaches. -/
structure LegacyOps extends PubKeyOps where
  pubkeyIsValid : Bytes → Bool
  verifyECDSA : Bytes → Bytes → Uint256 → Bool
  verifySchnorr : Bytes → Bytes → Uint256 → Bool
  signatureHash : CScript → CTransaction → Nat → UInt8 → Int → SigVersion → Uint256

/-- What a transaction checker is built from. Its precomputed data, if any,
comes from `Init` on the same transaction. -/
structure TxContext (h : Hashes) where
  txTo : CTransaction
  nIn : Nat
  amount : Int
  txdata : Option PrecomputedTransactionData
  mdb : MissingDataBehavior
  nIn_lt : nIn < txTo.vin.length
  txdata_init : ∀ d, txdata = some d →
    ∃ spentOutputs force, PrecomputedTransactionData.init h txTo spentOutputs force = some d

section
variable {h : Hashes} (oqs : OqsVerify) (ops : LegacyOps) (ctx : TxContext h)

def checkECDSASignature (vchSigIn vchPubKey : Bytes) (scriptCode : CScript)
    (sigversion : SigVersion) : Eval Bool :=
  if !ops.pubkeyIsValid vchPubKey then pure false
  else
    match vchSigIn.getLast? with
    | none => pure false
    | some nHashType =>
      if sigversion = .witnessV0 ∧ ctx.amount < 0 then
        match ctx.mdb with
        | .assertFail => throw .abort
        | .fail => pure false
      else
        pure (ops.verifyECDSA vchSigIn.dropLast vchPubKey
          (ops.signatureHash scriptCode ctx.txTo ctx.nIn nHashType ctx.amount sigversion))

def checkSchnorrSignature (sig pubkeyIn : Bytes) (sigversion : SigVersion)
    (execdata : ScriptExecutionData) (serror : ScriptError) : Eval ScriptExecutionData := do
  if ¬ (sigversion = .taproot ∨ sigversion = .tapscript) then throw .abort
  if pubkeyIn.length ≠ 32 then throw .abort
  if sig.length ≠ 64 ∧ sig.length ≠ 65 then scriptFail .schnorrSigSize
  let hashtype := if sig.length = 65 then sig.getLastD 0 else sighashDefault
  if sig.length = 65 ∧ hashtype = sighashDefault then scriptFail .schnorrSigHashtype
  let some cache := ctx.txdata | throw (handleMissingData ctx.mdb serror)
  let (sighash, execdata) ← signatureHashSchnorr h execdata ctx.txTo ctx.nIn hashtype sigversion cache
    ctx.mdb .schnorrSigHashtype
  if !ops.verifySchnorr (sig.take 64) pubkeyIn sighash then scriptFail .schnorrSig
  pure execdata

def checkQuantumDualSignature (xmssSig sphincsSig dualPubkey : Bytes) (sigversion : SigVersion)
    (execdata : ScriptExecutionData) (serror : ScriptError) : Eval ScriptExecutionData := do
  if sigversion ≠ .taproot then scriptFail .witnessProgramMismatch
  let some cache := ctx.txdata | throw (handleMissingData ctx.mdb serror)
  let (sighash, execdata) ← signatureHashSchnorr h execdata ctx.txTo ctx.nIn sighashDefault .taproot
    cache ctx.mdb .witnessProgramMismatch
  if !verifyQuantumDualSignature oqs xmssSig sphincsSig dualPubkey sighash then
    scriptFail .witnessProgramMismatch
  pure execdata

def locktimeThreshold : Int := 500000000

def checkLockTime (nLockTime : Int) : Bool :=
  let txLockTime : Int := ctx.txTo.nLockTime.toNat
  if ¬ (txLockTime < locktimeThreshold ∧ nLockTime < locktimeThreshold ∨
      txLockTime ≥ locktimeThreshold ∧ nLockTime ≥ locktimeThreshold) then false
  else if nLockTime > txLockTime then false
  else if (ctx.txTo.vin[ctx.nIn]?).map CTxIn.nSequence = some 0xffffffff then false
  else true

def sequenceLocktimeTypeFlag : Int := 2 ^ 22

def maskSequence (n : Int) : Int :=
  n / sequenceLocktimeTypeFlag % 2 * sequenceLocktimeTypeFlag + n % 2 ^ 16

def checkSequence (nSequence : Int) : Bool :=
  let txToSequence : Int :=
    (((ctx.txTo.vin[ctx.nIn]?).map CTxIn.nSequence).getD 0).toNat
  let txToSequenceMasked := maskSequence txToSequence
  let nSequenceMasked := maskSequence nSequence
  if ctx.txTo.version < 2 then false
  else if txToSequence / sequenceLocktimeDisableFlag % 2 ≠ 0 then false
  else if ¬ (txToSequenceMasked < sequenceLocktimeTypeFlag ∧ nSequenceMasked < sequenceLocktimeTypeFlag ∨
      txToSequenceMasked ≥ sequenceLocktimeTypeFlag ∧ nSequenceMasked ≥ sequenceLocktimeTypeFlag) then false
  else if nSequenceMasked > txToSequenceMasked then false
  else true

def transactionSignatureChecker : SignatureChecker :=
  { checkECDSASignature := checkECDSASignature ops ctx
    checkSchnorrSignature := checkSchnorrSignature ops ctx
    checkQuantumDualSignature := checkQuantumDualSignature oqs ctx
    checkLockTime := checkLockTime ctx
    checkSequence := checkSequence ctx }
end

/-- The precomputed data of the context knows the spent outputs and has been
prepared for taproot. -/
def TxContext.ReadyFor {h : Hashes} (ctx : TxContext h) (spentOutputs : List CTxOut) : Prop :=
  ∃ d, ctx.txdata = some d ∧ d.bip341TaprootReady = true ∧ d.spentOutputs = spentOutputs

/-- The key-path hash as the checker gets it. It is missing where the data has not
been prepared for taproot, also if the spent outputs are known. -/
def TxContext.keyPathHash {h : Hashes} (ctx : TxContext h) : Option Uint256 :=
  match ctx.txdata with
  | none => none
  | some d =>
    if d.bip341TaprootReady then some (bip341KeyPathHash h ctx.txTo d.spentOutputs ctx.nIn) else none

theorem TxContext.keyPathHash_isSome_iff {h : Hashes} (ctx : TxContext h) :
    ctx.keyPathHash.isSome = true ↔ ∃ d, ctx.txdata = some d ∧ d.bip341TaprootReady = true := by
  cases hd : ctx.txdata with
  | none => simp [keyPathHash, hd]
  | some d => simp [keyPathHash, hd]

theorem TxContext.keyPathHash_eq_some_iff {h : Hashes} (ctx : TxContext h) (hash : Uint256) :
    ctx.keyPathHash = some hash ↔
      ∃ spent, ctx.ReadyFor spent ∧ bip341KeyPathHash h ctx.txTo spent ctx.nIn = hash := by
  cases hd : ctx.txdata with
  | none => simp [keyPathHash, ReadyFor, hd]
  | some d => simp [keyPathHash, ReadyFor, hd]

theorem checkQuantumDualSignature_ok_iff {h : Hashes} (oqs : OqsVerify) (ctx : TxContext h)
    (xmssSig sphincsSig dualPubkey : Bytes) {execdata : ScriptExecutionData} (serror : ScriptError)
    (hi : execdata.annexInit = true) (ha : execdata.annexPresent = false) :
    (∃ e, checkQuantumDualSignature oqs ctx xmssSig sphincsSig dualPubkey .taproot execdata serror = .ok e) ↔
      ∃ hash, ctx.keyPathHash = some hash ∧
        DualSignatureValid oqs xmssSig sphincsSig dualPubkey hash := by
  cases hd : ctx.txdata with
  | none => simp [checkQuantumDualSignature, TxContext.keyPathHash, hd]
  | some d =>
    obtain ⟨spent, force, hinit⟩ := ctx.txdata_init d hd
    cases hr : d.bip341TaprootReady with
    | false =>
      obtain ⟨e, he⟩ := signatureHashSchnorr_missing h execdata ctx.txTo ctx.nIn ctx.mdb
        .witnessProgramMismatch hr
      simp [checkQuantumDualSignature, TxContext.keyPathHash, hd, hr, he]
    | true =>
      have hspent := (init_ready hinit hr).2.1
      have hhash := signatureHashSchnorr_keyPath ctx.mdb .witnessProgramMismatch hinit hr ctx.nIn_lt hi ha
      have hkey : ctx.keyPathHash = some (bip341KeyPathHash h ctx.txTo spent ctx.nIn) := by
        simp [TxContext.keyPathHash, hd, hr, hspent]
      simp only [hkey, Option.some.injEq, exists_eq_left', ← verifyQuantumDualSignature_iff]
      cases hv : verifyQuantumDualSignature oqs xmssSig sphincsSig dualPubkey
          (bip341KeyPathHash h ctx.txTo spent ctx.nIn) with
      | false => simp [checkQuantumDualSignature, hd, hhash, hv, scriptFail]
      | true => simp [checkQuantumDualSignature, hd, hhash, hv]

end Byze
