import Byze.Lib.ExceptEq
import Byze.Script

/-! The taproot signature hash with its precomputed transaction data, and the
key-path message of BIP 341 that it computes. -/

namespace Byze

structure Hashes where
  sha256 : Bytes → Uint256
  ripemd160 : Bytes → Bytes
  sha1 : Bytes → Bytes

inductive SigVersion where
  | base | witnessV0 | taproot | tapscript
  deriving DecidableEq, Repr

inductive MissingDataBehavior where
  | assertFail | fail
  deriving DecidableEq, Repr

/-- How an evaluation ends early: a script error, or an assertion that stops
the process. -/
inductive Stop where
  | fail (serror : ScriptError)
  | abort
  deriving DecidableEq, Repr

/-- What an execution hands to the signature checks. An absent value is one
whose `_init` flag is false. -/
structure ScriptExecutionData where
  tapleafHash : Option Uint256
  codeseparatorPos : Option UInt32
  annexInit : Bool
  annexPresent : Bool
  annexHash : Uint256
  validationWeightLeft : Option Int
  outputHash : Option Uint256

def ScriptExecutionData.empty : ScriptExecutionData :=
  ⟨none, none, false, false, Uint256.zero, none, none⟩

structure PrecomputedTransactionData where
  prevoutsSingleHash : Uint256
  sequencesSingleHash : Uint256
  outputsSingleHash : Uint256
  spentAmountsSingleHash : Uint256
  spentScriptsSingleHash : Uint256
  bip341TaprootReady : Bool
  spentOutputs : List CTxOut
  spentOutputsReady : Bool

section
variable (h : Hashes)

def getPrevoutsSHA256 (tx : CTransaction) : Uint256 :=
  h.sha256 (tx.vin.flatMap (fun txin => txin.prevout.serialize))

def getSequencesSHA256 (tx : CTransaction) : Uint256 :=
  h.sha256 (tx.vin.flatMap (fun txin => serializeUint32 txin.nSequence))

def getOutputsSHA256 (tx : CTransaction) : Uint256 := h.sha256 (tx.vout.flatMap CTxOut.serialize)

def getSpentAmountsSHA256 (outputsSpent : List CTxOut) : Uint256 :=
  h.sha256 (outputsSpent.flatMap (fun txout => serializeInt64 txout.nValue))

def getSpentScriptsSHA256 (outputsSpent : List CTxOut) : Uint256 :=
  h.sha256 (outputsSpent.flatMap (fun txout => serializeBytes txout.scriptPubKey))

def isTaprootSpend (txin : CTxIn) (spent : Option CTxOut) : Bool :=
  !txin.scriptWitness.isEmpty &&
    spent.any (fun txout => txout.scriptPubKey.length = 34 ∧ txout.scriptPubKey[0]? = some op1)

/-- The scan over the inputs stops early only when both features were seen. -/
def usesBip341Taproot (tx : CTransaction) (spentOutputs : List CTxOut) (force : Bool) : Bool :=
  force || (List.range tx.vin.length).any (fun inpos =>
    (tx.vin[inpos]?).any (fun txin => isTaprootSpend txin spentOutputs[inpos]?))

def usesBip143Segwit (tx : CTransaction) (spentOutputs : List CTxOut) (force : Bool) : Bool :=
  force || (List.range tx.vin.length).any (fun inpos =>
    (tx.vin[inpos]?).any (fun txin =>
      !txin.scriptWitness.isEmpty && !isTaprootSpend txin spentOutputs[inpos]?))

/-- `Init`; `none` stands for the failed assertion on the number of outputs. -/
def PrecomputedTransactionData.init (tx : CTransaction) (spentOutputs : List CTxOut) (force : Bool)
    : Option PrecomputedTransactionData :=
  if ¬ spentOutputs.isEmpty ∧ spentOutputs.length ≠ tx.vin.length then none
  else
    let spentOutputsReady := !spentOutputs.isEmpty
    let usesTaproot := usesBip341Taproot tx spentOutputs force
    let uses := usesTaproot || usesBip143Segwit tx spentOutputs force
    let ready := usesTaproot && spentOutputsReady
    some {
      prevoutsSingleHash := if uses then getPrevoutsSHA256 h tx else Uint256.zero
      sequencesSingleHash := if uses then getSequencesSHA256 h tx else Uint256.zero
      outputsSingleHash := if uses then getOutputsSHA256 h tx else Uint256.zero
      spentAmountsSingleHash := if ready then getSpentAmountsSHA256 h spentOutputs else Uint256.zero
      spentScriptsSingleHash := if ready then getSpentScriptsSHA256 h spentOutputs else Uint256.zero
      bip341TaprootReady := ready
      spentOutputs := spentOutputs
      spentOutputsReady := spentOutputsReady }

def tapSighashTag : Bytes := [0x54, 0x61, 0x70, 0x53, 0x69, 0x67, 0x68, 0x61, 0x73, 0x68]

def taggedHash (tag msg : Bytes) : Uint256 :=
  h.sha256 ((h.sha256 tag).val ++ (h.sha256 tag).val ++ msg)
end

def sighashDefault : UInt8 := 0
def sighashAll : UInt8 := 1
def sighashSingle : UInt8 := 3
def sighashOutputMask : UInt8 := 3
def sighashAnyoneCanPay : UInt8 := 0x80
def sighashInputMask : UInt8 := 0x80

def handleMissingData (mdb : MissingDataBehavior) (serror : ScriptError) : Stop :=
  match mdb with
  | .assertFail => .abort
  | .fail => .fail serror

/-- `hash_out` and the updated execution data. Where the source returns false
the caller's error code is passed on. -/
def signatureHashSchnorr (h : Hashes) (execdata : ScriptExecutionData) (txTo : CTransaction)
    (inPos : Nat) (hashType : UInt8) (sigversion : SigVersion) (cache : PrecomputedTransactionData)
    (mdb : MissingDataBehavior) (serror : ScriptError) :
    Except Stop (Uint256 × ScriptExecutionData) := do
  let extFlag : UInt8 ← match sigversion with
    | .taproot => pure 0
    | .tapscript => pure 1
    | _ => throw .abort
  let some txin := txTo.vin[inPos]? | throw .abort
  if ¬ (cache.bip341TaprootReady ∧ cache.spentOutputsReady) then
    throw (handleMissingData mdb serror)
  let outputType := if hashType = sighashDefault then sighashAll else hashType &&& sighashOutputMask
  let inputType := hashType &&& sighashInputMask
  if ¬ (hashType ≤ 0x03 ∨ hashType ≥ 0x81 ∧ hashType ≤ 0x83) then throw (.fail serror)
  let level := serializeUint32 txTo.version ++ serializeUint32 txTo.nLockTime ++
    (if inputType ≠ sighashAnyoneCanPay then
      cache.prevoutsSingleHash.val ++ cache.spentAmountsSingleHash.val ++
        cache.spentScriptsSingleHash.val ++ cache.sequencesSingleHash.val else []) ++
    (if outputType = sighashAll then cache.outputsSingleHash.val else [])
  if ¬ execdata.annexInit then throw .abort
  let spendType : UInt8 := (extFlag <<< 1) + (if execdata.annexPresent then 1 else 0)
  let input ←
    if inputType = sighashAnyoneCanPay then do
      let some spent := cache.spentOutputs[inPos]? | throw .abort
      pure (txin.prevout.serialize ++ spent.serialize ++ serializeUint32 txin.nSequence)
    else pure (LittleEndian.encode 4 inPos)
  let annex := if execdata.annexPresent then execdata.annexHash.val else []
  let (single, execdata) ←
    if outputType = sighashSingle then do
      let some txout := txTo.vout[inPos]? | throw (.fail serror)
      let hash := execdata.outputHash.getD (h.sha256 txout.serialize)
      pure (hash.val, { execdata with outputHash := some hash })
    else pure ([], execdata)
  let ext ← match sigversion with
    | .tapscript => do
      let some leaf := execdata.tapleafHash | throw .abort
      let some pos := execdata.codeseparatorPos | throw .abort
      pure (leaf.val ++ [0] ++ serializeUint32 pos)
    | _ => pure []
  let msg := [0, hashType] ++ level ++ [spendType] ++ input ++ annex ++ single ++ ext
  pure (taggedHash h tapSighashTag msg, execdata)

def bip341KeyPathMessage (h : Hashes) (tx : CTransaction) (spentOutputs : List CTxOut) (nIn : Nat) :
    Bytes :=
  [0, 0] ++ (serializeUint32 tx.version ++ serializeUint32 tx.nLockTime ++
    ((h.sha256 (tx.vin.flatMap (fun txin => txin.prevout.serialize))).val ++
      (h.sha256 (spentOutputs.flatMap (fun txout => serializeInt64 txout.nValue))).val ++
      (h.sha256 (spentOutputs.flatMap (fun txout => serializeBytes txout.scriptPubKey))).val ++
      (h.sha256 (tx.vin.flatMap (fun txin => serializeUint32 txin.nSequence))).val) ++
    (h.sha256 (tx.vout.flatMap CTxOut.serialize)).val) ++ [0] ++ LittleEndian.encode 4 nIn

def bip341KeyPathHash (h : Hashes) (tx : CTransaction) (spentOutputs : List CTxOut) (nIn : Nat) :
    Uint256 := taggedHash h tapSighashTag (bip341KeyPathMessage h tx spentOutputs nIn)

variable {d : PrecomputedTransactionData} {spent : List CTxOut} {tx : CTransaction} {force : Bool}

section
variable {h : Hashes} (hd : PrecomputedTransactionData.init h tx spent force = some d)
  (hr : d.bip341TaprootReady = true)

include hd hr

theorem init_ready :
    d.spentOutputsReady = true ∧ d.spentOutputs = spent ∧ d.prevoutsSingleHash = getPrevoutsSHA256 h tx ∧
      d.sequencesSingleHash = getSequencesSHA256 h tx ∧
      d.outputsSingleHash = getOutputsSHA256 h tx ∧
      d.spentAmountsSingleHash = getSpentAmountsSHA256 h spent ∧
      d.spentScriptsSingleHash = getSpentScriptsSHA256 h spent := by
  simp only [PrecomputedTransactionData.init] at hd
  split at hd
  · cases hd
  · cases hd
    simp only [Bool.and_eq_true] at hr
    obtain ⟨hu, hs⟩ := hr
    simp [hu, hs]

theorem init_ready_length : spent.length = tx.vin.length := by
  simp only [PrecomputedTransactionData.init] at hd
  split at hd
  · cases hd
  · rename_i hlength
    cases hd
    simp only [Bool.and_eq_true, Bool.not_eq_true'] at hr
    by_contra hne
    exact hlength ⟨by simp [hr.2], hne⟩
end

/-- With the data of `Init` the key-path hash is the one of BIP 341. -/
theorem signatureHashSchnorr_keyPath {h : Hashes} {nIn : Nat} {execdata : ScriptExecutionData}
    (mdb : MissingDataBehavior) (serror : ScriptError)
    (hd : PrecomputedTransactionData.init h tx spent force = some d)
    (hr : d.bip341TaprootReady = true) (hn : nIn < tx.vin.length) (hi : execdata.annexInit = true)
    (ha : execdata.annexPresent = false) :
    signatureHashSchnorr h execdata tx nIn sighashDefault .taproot d mdb serror =
      .ok (bip341KeyPathHash h tx spent nIn, execdata) := by
  obtain ⟨hso, -, hp, hq, ho, hsa, hss⟩ := init_ready hd hr
  have hvin := List.getElem?_eq_getElem hn
  have hany : sighashDefault &&& sighashInputMask ≠ sighashAnyoneCanPay := by decide
  simp [signatureHashSchnorr, hvin, hr, hso, hp, hq, ho, hsa, hss, hany, hi, ha, bip341KeyPathHash,
    bip341KeyPathMessage]
  rfl

theorem signatureHashSchnorr_missing (h : Hashes) (execdata : ScriptExecutionData)
    (tx : CTransaction) (nIn : Nat) (mdb : MissingDataBehavior) (serror : ScriptError)
    (hr : d.bip341TaprootReady = false) :
    ∃ e, signatureHashSchnorr h execdata tx nIn sighashDefault .taproot d mdb serror = .error e := by
  cases hv : tx.vin[nIn]? with
  | none => exact ⟨.abort, by simp [signatureHashSchnorr, hv]⟩
  | some txin => exact ⟨handleMissingData mdb serror, by simp [signatureHashSchnorr, hv, hr]⟩

end Byze
