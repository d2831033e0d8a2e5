import Byze.Wallet.Lock

/-! Signing for an output: finding the key of its program, the pending record
around the signature, and storing the key before the signature is handed out. -/

namespace Byze

section
variable {Key : Type} (env : WalletEnv Key)

def DescriptorScriptPubKeyMan.findQuantumScript (spkm : DescriptorScriptPubKeyMan)
    (program : Uint256) : Option Nat :=
  (spkm.mapScriptPubKeys.find? fun p =>
    quantumProgramOf p.1 = some program && !spkm.isDescriptorExpansionScript p.1).map (·.2.toNat)

/-- The receive indexes that have been handed out, by their records. -/
def findQuantumRecord (db : WalletDb) (scanUpto : Int) (program : Uint256) : Option Nat :=
  (List.range scanUpto.toNat).find? fun index =>
    readCachedQuantumProgram db ⟨false, index⟩ = some program

def findReceiveIndexForQuantumProgram (w : World Key) (program : Uint256) : Option Nat :=
  if (w.wallet.quantumChangePrograms program).isSome then none
  else if w.wallet.quantumProgramBytes = some program then some 0
  else
    w.wallet.spkManagers.findSome? fun spkm =>
      (spkm.findQuantumScript program).or (findQuantumRecord w.db spkm.walletDescriptor.nextIndex program)

def findQuantumKeyForProgram (w : World Key) (program : Uint256) : Option QuantumKeyRef :=
  match w.wallet.quantumChangePrograms program with
  | some index => some ⟨true, index⟩
  | none => (findReceiveIndexForQuantumProgram w program).map fun index => ⟨false, index⟩

def isQuantumMine (w : World Key) (script : CScript) : Bool :=
  (quantumProgramOf script).any fun program =>
    (findQuantumKeyForProgram w program).isSome || w.wallet.quantumProgramBytes = some program

def isMine (w : World Key) (script : CScript) : Bool :=
  if w.wallet.getScriptPubKeyMans script = [] then isQuantumMine w script
  else
    (w.wallet.getScriptPubKeyMans script).any fun id =>
      (w.wallet.findSpkm id).any (·.isMine script)

def witnessProgramOf (outputProgram : Bytes) : Option Uint256 := loadSized 32 outputProgram

/-- Liboqs gives no way to set the leaf of a key, and the call for it always
fails. -/
def setXmssIndex (_mgr : QuantumSafeManager Key) (_index : Nat) : Bool := false

def eraseQuantumPending : WalletM Key Bool :=
  dbErase fun db => { db with quantumPending := none }

def recoverPendingXmssDb (mgr : QuantumSafeManager Key) : WalletM Key Bool := do
  let w ← get
  match w.db.quantumPending with
  | none => pure true
  | some pendingIndex =>
    let o ← nextOutcome
    match mgr.getXmssIndex env.lib o.indexRead with
    | none => pure false
    | some current =>
      if pendingIndex ≥ current && !setXmssIndex mgr (pendingIndex + 1) then pure false
      else
        let _ ← eraseQuantumPending
        pure true

/-- The key as it is after the signature is written to its records, and to
memory for receive index 0. -/
def persistSigned (ref : QuantumKeyRef) (mgr : QuantumSafeManager Key) : WalletM Key Bool := do
  let w ← get
  match mgr.serializeDualKeys with
  | none => pure false
  | some plain =>
    match sealPayload env w.wallet plain, programFromManager env mgr with
    | some payload, some program =>
      let enc := w.wallet.encrypting
      if ← persistQuantumKeyPacked ref enc w.wallet.quantumKeyOrigin program payload then
        let _ ← eraseQuantumPending
        if !ref.change && ref.index = 0 then
          modifyWallet fun wallet =>
            { wallet with
              quantumProgramBytes := some program
              quantumSecretStorage := payload
              quantumSecretIsEncrypted := enc
              quantumManager := cloneQuantumManager mgr }
          pure (cloneQuantumManager mgr).isSome
        else pure true
      else pure false
    | _, _ => pure false

def signReserved (ref : QuantumKeyRef) (inMemory : Bool) (mgr : QuantumSafeManager Key)
    (reservedIndex : Nat) (sighash : Uint256) : WalletM Key (Option QuantumSignature) := do
  let o ← nextOutcome
  let x := mgr.sign env.lib sighash .xmss o.sign
  let mgr' := x.2.1
  modifyWallet fun wallet => if inMemory then { wallet with quantumManager := some mgr' } else wallet
  let o ← nextOutcome
  let sphincsSig := (mgr'.sign env.lib sighash .sphincsPlus o.sign).1
  if x.1.length ≠ xmssSignatureSize ∨ sphincsSig.length ≠ sphincsSignatureSize then pure none
  else
    let o ← nextOutcome
    match mgr'.getXmssIndex env.lib o.indexRead with
    | none => pure none
    | some postSignIndex =>
      if postSignIndex < reservedIndex + 1 && !setXmssIndex mgr' (reservedIndex + 1) then pure none
      else if ← runWithinTxn (persistSigned env ref mgr') then
        modify fun w => { w with signedLeaves := x.2.2.toList ++ w.signedLeaves }
        pure (some ⟨x.1, sphincsSig, mgr.getDualPublicKeyBundle⟩)
      else pure none

def signWithManager (ref : QuantumKeyRef) (inMemory : Bool) (mgr : QuantumSafeManager Key)
    (program sighash : Uint256) : WalletM Key (Option QuantumSignature) := do
  if ← recoverPendingXmssDb env mgr then
    if programFromManager env mgr ≠ some program then pure none
    else
      let o ← nextOutcome
      match mgr.getXmssIndex env.lib o.indexRead with
      | none => pure none
      | some reservedIndex =>
        if ← runWithinTxn (dbWrite fun db => { db with quantumPending := some reservedIndex }) then
          match ← signReserved env ref inMemory mgr reservedIndex sighash with
          | some signature => pure (some signature)
          | none =>
            let _ ← eraseQuantumPending
            pure none
        else pure none
  else pure none

def signQuantumTransactionSighash (sighash : Uint256) (outputProgram : Bytes) :
    WalletM Key (Option QuantumSignature) := do
  let w ← get
  match witnessProgramOf outputProgram with
  | none => pure none
  | some program =>
    match findQuantumKeyForProgram w program with
    | none => pure none
    | some ref =>
      match if ref = ⟨false, 0⟩ ∧ w.wallet.quantumProgramBytes = some program then
          w.wallet.quantumManager else none with
      | some mgr => signWithManager env ref true mgr program sighash
      | none =>
        match ← loadQuantumManagerForKey env ref with
        | none => pure none
        | some mgr => signWithManager env ref false mgr program sighash
end

end Byze
