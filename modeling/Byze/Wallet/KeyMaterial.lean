import Byze.Wallet.State

/-! The wallet's quantum keys: derived from the root of the receive descriptor,
loaded from a record, and written back. -/

namespace Byze

structure QuantumKeyRef where
  change : Bool
  index : Nat
  deriving DecidableEq

def buildQuantumIkm (master : CExtKey) (index : Nat) : Bytes :=
  if index = 0 then master.val else master.val ++ LittleEndian.encode 4 index

def quantumChangeIkmTag : Bytes :=
  [0x62, 0x79, 0x7a, 0x65, 0x2f, 0x71, 0x75, 0x61, 0x6e, 0x74, 0x75, 0x6d, 0x2f, 0x63, 0x68, 0x61,
    0x6e, 0x67, 0x65, 0x2f, 0x76, 0x31]

def quantumIkm (master : CExtKey) (ref : QuantumKeyRef) : Bytes :=
  if ref.change then master.val ++ LittleEndian.encode 4 ref.index ++ quantumChangeIkmTag
  else buildQuantumIkm master ref.index

def quantumWalletIvText : Bytes :=
  [0x62, 0x79, 0x7a, 0x65, 0x5f, 0x77, 0x61, 0x6c, 0x6c, 0x65, 0x74, 0x5f, 0x71, 0x75, 0x61, 0x6e,
    0x74, 0x75, 0x6d, 0x5f, 0x69, 0x76, 0x5f, 0x76, 0x31]

section
variable {Key : Type} (env : WalletEnv Key)

def quantumWalletIv : Uint256 := hash256 env.hashes quantumWalletIvText

def programFromManager (mgr : QuantumSafeManager Key) : Option Uint256 :=
  if mgr.getDualPublicKeyBundle = [] then none
  else some (env.hashes.sha256 mgr.getDualPublicKeyBundle)

def deriveQuantumManagerForKey (master : CExtKey) (ref : QuantumKeyRef) :
    WalletM Key (Option (QuantumSafeManager Key)) := do
  let o ← nextOutcome
  let r := QuantumSafeManager.empty.generateDualKeysFromEntropyIkm env.hashes env.lib
    (quantumIkm master ref) o.keygen
  pure (if r.1 then some r.2 else none)

def deriveQuantumProgramForKey (master : CExtKey) (ref : QuantumKeyRef) : WalletM Key (Option Uint256) := do
  let mgr ← deriveQuantumManagerForKey env master ref
  pure (mgr.bind (programFromManager env))

def cloneQuantumManager (src : QuantumSafeManager Key) : Option (QuantumSafeManager Key) :=
  src.serializeDualKeys.bind QuantumSafeManager.deserializeDualKeys

def openQuantumPayload (vMasterKey : Bytes) (r : QuantumRecord) : Option (QuantumSafeManager Key) :=
  if r.encrypted then
    if vMasterKey = [] then none
    else
      (env.crypter.decryptSecret vMasterKey r.payload (quantumWalletIv env)).bind
        QuantumSafeManager.deserializeDualKeys
  else QuantumSafeManager.deserializeDualKeys r.payload

/-- The keys of a record, if they are the keys of its program. -/
def unpackQuantumBlobToManager (vMasterKey packed : Bytes) : Option (QuantumSafeManager Key) :=
  (unpackQuantumDbRecord packed).bind fun r =>
    (openQuantumPayload env vMasterKey r).bind fun mgr =>
      if programFromManager env mgr = some r.program then some mgr else none

def WalletDb.readQuantum (db : WalletDb) (key : QuantumDbKey) : Option Bytes :=
  (db.quantum key).bind fun packed => if packed = [] then none else some packed

def WalletDb.writeQuantum (key : QuantumDbKey) (packed : Bytes) (db : WalletDb) : WalletDb :=
  { db with quantum := Function.update db.quantum key (some packed) }

/-- A descriptor key is encrypted under the hash of its public key. -/
def decryptKey (masterKey pubkey cryptedSecret : Bytes) : Option CKey :=
  (env.crypter.decryptSecret masterKey cryptedSecret (hash256 env.hashes pubkey)).bind fun secret =>
    (loadSized 32 secret).bind fun key => if env.getPubKey key = pubkey then some key else none

def DescriptorScriptPubKeyMan.havePrivateKeys (spkm : DescriptorScriptPubKeyMan) : Bool :=
  !spkm.mapKeys.isEmpty || !spkm.mapCryptedKeys.isEmpty

def DescriptorScriptPubKeyMan.getKeys (wallet : CWallet Key) (spkm : DescriptorScriptPubKeyMan) :
    List CKey :=
  if wallet.isCrypted && !wallet.isLocked then
    spkm.mapCryptedKeys.filterMap fun p => decryptKey env wallet.vMasterKey p.1 p.2
  else spkm.mapKeys

def exportTaprootDescriptorRootExtKey (wallet : CWallet Key) (spkm : DescriptorScriptPubKeyMan) :
    Option CExtKey :=
  if spkm.walletDescriptor.descriptor.outputType ≠ some .bech32m then none
  else if !spkm.havePrivateKeys then none
  else spkm.walletDescriptor.descriptor.rootExtKey (spkm.getKeys env wallet)

def tryGetTaprootDescriptorRootExtKey (wallet : CWallet Key) : Option CExtKey :=
  (wallet.getScriptPubKeyMan false).bind (exportTaprootDescriptorRootExtKey env wallet)

def deriveFromRoot (ref : QuantumKeyRef) : WalletM Key (Option (QuantumSafeManager Key)) := do
  let w ← get
  match tryGetTaprootDescriptorRootExtKey env w.wallet with
  | none => pure none
  | some master => deriveQuantumManagerForKey env master ref

def loadQuantumManagerForReceiveIndex (receiveIndex : Nat) :
    WalletM Key (Option (QuantumSafeManager Key)) := do
  let w ← get
  match w.db.readQuantum (.indexState receiveIndex) with
  | some packed => pure (unpackQuantumBlobToManager env w.wallet.vMasterKey packed)
  | none =>
    match if receiveIndex = 0 then w.db.readQuantum .state else none with
    | some legacy => pure (unpackQuantumBlobToManager env w.wallet.vMasterKey legacy)
    | none => deriveFromRoot env ⟨false, receiveIndex⟩

def loadQuantumManagerForKey (ref : QuantumKeyRef) : WalletM Key (Option (QuantumSafeManager Key)) := do
  if ref.change then
    let w ← get
    match w.db.readQuantum (.changeIndexState ref.index) with
    | some packed => pure (unpackQuantumBlobToManager env w.wallet.vMasterKey packed)
    | none => deriveFromRoot env ref
  else loadQuantumManagerForReceiveIndex env ref.index

def persistQuantumManagerPacked (receiveIndex : Nat) (packed : Bytes) : WalletM Key Bool := do
  if ← dbWrite (WalletDb.writeQuantum (.indexState receiveIndex) packed) then
    if receiveIndex = 0 then dbWrite (WalletDb.writeQuantum .state packed) else pure true
  else pure false

def persistQuantumKeyPacked (ref : QuantumKeyRef) (enc : Bool) (origin : UInt8)
    (program : Uint256) (payload : Bytes) : WalletM Key Bool :=
  let packed := packQuantumDbRecordV2 enc origin program payload
  if ref.change then dbWrite (WalletDb.writeQuantum (.changeIndexState ref.index) packed)
  else persistQuantumManagerPacked ref.index packed

/-- The payload that key material is stored as: encrypted when the wallet is
encrypted and unlocked, and as it is otherwise. -/
def sealPayload (wallet : CWallet Key) (plain : Bytes) : Option Bytes :=
  if wallet.encrypting then
    env.crypter.encryptSecret wallet.vMasterKey plain (quantumWalletIv env)
  else some plain

/-- Either nothing is to be encrypted, or the key in memory can encrypt. -/
def CWallet.Seals (wallet : CWallet Key) : Prop :=
  wallet.encrypting = true → wallet.vMasterKey.length = walletCryptoKeySize

theorem sealPayload_isSome_iff (wallet : CWallet Key) (plain : Bytes) :
    (sealPayload env wallet plain).isSome = true ↔ wallet.Seals := by
  rw [sealPayload, CWallet.Seals]
  split
  next henc => simp [henc, env.crypter.encryptSecret_isSome]
  next henc => simp [henc]

def persistQuantumManagerForKey (ref : QuantumKeyRef) (mgr : QuantumSafeManager Key) :
    WalletM Key Bool := do
  let w ← get
  match mgr.serializeDualKeys with
  | none => pure false
  | some plain =>
    match sealPayload env w.wallet plain with
    | none => pure false
    | some payload =>
      match programFromManager env mgr with
      | none => pure false
      | some program =>
        let enc := w.wallet.encrypting
        if ← persistQuantumKeyPacked ref enc w.wallet.quantumKeyOrigin program payload then
          modifyWallet fun wallet =>
            if ref.change then
              { wallet with
                quantumChangePrograms :=
                  Function.update wallet.quantumChangePrograms program (some ref.index) }
            else if ref.index = 0 then
              { wallet with
                quantumProgramBytes := some program
                quantumSecretStorage := payload
                quantumSecretIsEncrypted := enc }
            else wallet
          pure true
        else pure false

def readCachedQuantumProgram (db : WalletDb) (ref : QuantumKeyRef) : Option Uint256 :=
  (db.readQuantum (if ref.change then .changeIndexState ref.index else .indexState ref.index)).bind
    fun packed => (unpackQuantumDbRecord packed).map (·.program)

def rememberChangeProgram (program : Uint256) (index : Nat) : WalletM Key PUnit :=
  modifyWallet fun wallet =>
    { wallet with
      quantumChangePrograms := Function.update wallet.quantumChangePrograms program (some index) }

def ensureQuantumChangeIndexState (changeIndex : Nat) : WalletM Key Bool := do
  let w ← get
  match readCachedQuantumProgram w.db ⟨true, changeIndex⟩ with
  | some program =>
    rememberChangeProgram program changeIndex
    pure true
  | none =>
    match ← loadQuantumManagerForKey env ⟨true, changeIndex⟩ with
    | none => pure false
    | some mgr => persistQuantumManagerForKey env ⟨true, changeIndex⟩ mgr

def ensureQuantumIndexStateForReceiveIndex (receiveIndex : Nat) : WalletM Key Bool := do
  let w ← get
  if (w.db.readQuantum (.indexState receiveIndex)).isSome then pure true
  else
    match ← loadQuantumManagerForReceiveIndex env receiveIndex with
    | none => pure false
    | some mgr => persistQuantumManagerForKey env ⟨false, receiveIndex⟩ mgr

def persistQuantumKeyMaterialFromHdMaster (masterKey : CExtKey) (overwriteExisting : Bool) :
    WalletM Key Bool := do
  let w ← get
  if !overwriteExisting && (w.db.readQuantum .state).isSome then pure true
  else
    match ← deriveQuantumManagerForKey env masterKey ⟨false, 0⟩ with
    | none => pure false
    | some mgr =>
      match programFromManager env mgr, mgr.serializeDualKeys with
      | some program, some plain =>
        match sealPayload env w.wallet plain with
        | none => pure false
        | some payload =>
          let enc := w.wallet.encrypting
          let packed := packQuantumDbRecordV2 enc quantumOriginHdMaster program payload
          if ← dbWrite (WalletDb.writeQuantum .state packed) then
            if ← dbWrite (WalletDb.writeQuantum (.indexState 0) packed) then
              let loaded : Option (QuantumSafeManager Key) :=
                QuantumSafeManager.deserializeDualKeys plain
              modifyWallet fun wallet =>
                { wallet with
                  quantumBlobFormat := quantumPackV2
                  quantumKeyOrigin := quantumOriginHdMaster
                  quantumProgramBytes := some program
                  quantumSecretStorage := payload
                  quantumSecretIsEncrypted := enc
                  quantumManager := loaded }
              pure loaded.isSome
            else pure false
          else pure false
      | _, _ => pure false

def maybeUpgradeQuantumStateToHdOrigin : WalletM Key Bool := do
  let w ← get
  if w.wallet.quantumKeyOrigin = quantumOriginHdMaster then pure true
  else
    match w.wallet.quantumProgramBytes with
    | none => pure true
    | some programBytes =>
      match tryGetTaprootDescriptorRootExtKey env w.wallet with
      | none => pure false
      | some master =>
        match ← deriveQuantumProgramForKey env master ⟨false, 0⟩ with
        | none => pure false
        | some derivedProgram =>
          if derivedProgram ≠ programBytes then pure false
          else persistQuantumKeyMaterialFromHdMaster env master true

def ensureQuantumKeysForReceive : WalletM Key Bool := do
  let w ← get
  if w.wallet.quantumProgramBytes.isSome then pure true
  else if w.wallet.isCrypted && w.wallet.vMasterKey.isEmpty then pure false
  else
    match tryGetTaprootDescriptorRootExtKey env w.wallet with
    | none => pure false
    | some master =>
      if ← runWithinTxn (persistQuantumKeyMaterialFromHdMaster env master false) then
        let w ← get
        pure (w.wallet.quantumProgramBytes.isSome && w.wallet.quantumManager.isSome)
      else pure false
end

end Byze
