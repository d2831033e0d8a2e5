import Byze.Wallet.Setup

/-! Locking, unlocking, encrypting and loading a wallet. -/

namespace Byze

inductive DBErrors where
  | loadOk | corrupt
  deriving DecidableEq

section
variable {Key : Type} (env : WalletEnv Key)

def lock : WalletM Key Bool := do
  let w ← get
  if !w.wallet.isCrypted then pure false
  else
    modifyWallet fun wallet => { wallet with vMasterKey := [], quantumManager := none }
    pure true

def scanCryptedKeys (masterKey : Bytes) (thoroughlyChecked : Bool) : List (Bytes × Bytes) → Bool → Bool × Bool
  | [], keyPass => (keyPass, false)
  | (pubkey, secret) :: keys, keyPass =>
    if (decryptKey env masterKey pubkey secret).isNone then (keyPass, true)
    else if thoroughlyChecked then (true, false)
    else scanCryptedKeys masterKey thoroughlyChecked keys true

def checkDecryptionKey (masterKey : Bytes) (spkm : DescriptorScriptPubKeyMan) :
    WalletM Key Bool := do
  if !spkm.mapKeys.isEmpty then pure false
  else
    let (keyPass, keyFail) := scanCryptedKeys env masterKey spkm.decryptionThoroughlyChecked
      spkm.mapCryptedKeys spkm.mapCryptedKeys.isEmpty
    if keyPass && keyFail then
      throw (.exception ("Error unlocking wallet: some keys decrypt but not all. Your wallet " ++
        "file may be corrupt."))
    else if keyFail || !keyPass then pure false
    else
      updateSpkm spkm.getID fun spkm => { spkm with decryptionThoroughlyChecked := true }
      pure true

def checkDecryptionKeys (masterKey : Bytes) : List DescriptorScriptPubKeyMan → WalletM Key Bool
  | [] => pure true
  | spkm :: spkms => do
    if ← checkDecryptionKey env masterKey spkm then checkDecryptionKeys masterKey spkms
    else pure false

def applyQuantumStateFromPackedBlob (raw : Bytes) : WalletM Key DBErrors := do
  match unpackQuantumDbRecord raw with
  | none => pure .corrupt
  | some r =>
    modifyWallet fun wallet =>
      { wallet with
        quantumBlobFormat := r.format
        quantumKeyOrigin := r.origin
        quantumProgramBytes := some r.program
        quantumSecretStorage := r.payload
        quantumSecretIsEncrypted := r.encrypted
        quantumManager :=
          if r.encrypted then none else QuantumSafeManager.deserializeDualKeys r.payload }
    let w ← get
    if !r.encrypted then
      pure (if w.wallet.quantumManager.isSome then .loadOk else .corrupt)
    else pure (if w.wallet.isCrypted then .loadOk else .corrupt)

def tryLoadQuantumManagerAfterUnlock : WalletM Key Bool := do
  modifyWallet fun wallet => { wallet with quantumManager := none }
  let w ← get
  if w.wallet.quantumProgramBytes.isNone || w.wallet.quantumSecretStorage.isEmpty then pure true
  else
    let plain? :=
      if !w.wallet.quantumSecretIsEncrypted then some w.wallet.quantumSecretStorage
      else if w.wallet.vMasterKey.isEmpty then none
      else
        env.crypter.decryptSecret w.wallet.vMasterKey w.wallet.quantumSecretStorage (quantumWalletIv env)
    let mgr : Option (QuantumSafeManager Key) := plain?.bind QuantumSafeManager.deserializeDualKeys
    modifyWallet fun wallet => { wallet with quantumManager := mgr }
    pure mgr.isSome

def readStoredQuantumState : WalletM Key DBErrors := do
  let w ← get
  match w.db.readQuantum .state with
  | none =>
    modifyWallet fun wallet =>
      { wallet with
        quantumProgramBytes := none
        quantumSecretStorage := []
        quantumSecretIsEncrypted := false
        quantumManager := none }
    pure .loadOk
  | some raw => applyQuantumStateFromPackedBlob raw

def reloadQuantumState : WalletM Key Bool := do
  let applied ← readStoredQuantumState
  if applied ≠ .loadOk then pure false
  else if ← tryLoadQuantumManagerAfterUnlock env then
    let _ ← maybeUpgradeQuantumStateToHdOrigin env
    pure true
  else
    modifyWallet fun wallet => { wallet with vMasterKey := [], quantumManager := none }
    pure false

def unlockWithKey (vMasterKeyIn : Bytes) : WalletM Key Bool := do
  let w ← get
  if ← checkDecryptionKeys env vMasterKeyIn w.wallet.spkManagers then
    modifyWallet fun wallet => { wallet with vMasterKey := vMasterKeyIn }
    reloadQuantumState env
  else pure false

def unlockWithMasterKeys (passphrase : Bytes) : List (Nat × CMasterKey) → WalletM Key Bool
  | [] => pure false
  | (_, masterKey) :: rest => do
    match decryptMasterKey env.crypter passphrase masterKey with
    | none => unlockWithMasterKeys passphrase rest
    | some plainMasterKey =>
      if ← unlockWithKey env plainMasterKey then pure true else unlockWithMasterKeys passphrase rest

def unlock (passphrase : Bytes) : WalletM Key Bool := do
  let w ← get
  unlockWithMasterKeys env passphrase w.wallet.mapMasterKeys

def encryptKeys (masterKey : Bytes) (id : Uint256) : List CKey → WalletM Key Bool
  | [] => pure true
  | key :: keys => do
    let pubkey := env.getPubKey key
    match env.crypter.encryptSecret masterKey key.val (hash256 env.hashes pubkey) with
    | none => pure false
    | some secret =>
      updateSpkm id fun spkm =>
        { spkm with mapCryptedKeys := (pubkey, secret) :: spkm.mapCryptedKeys }
      let _ ← writeCryptedDescriptorKey id key pubkey secret
      encryptKeys masterKey id keys

def encryptSpkm (masterKey : Bytes) (spkm : DescriptorScriptPubKeyMan) : WalletM Key Bool := do
  if !spkm.mapCryptedKeys.isEmpty then pure false
  else if ← encryptKeys env masterKey spkm.getID spkm.mapKeys then
    updateSpkm spkm.getID fun spkm => { spkm with mapKeys := [] }
    pure true
  else pure false

def encryptSpkms (masterKey : Bytes) : List DescriptorScriptPubKeyMan → WalletM Key PUnit
  | [] => pure ⟨⟩
  | spkm :: spkms => do
    if ← encryptSpkm env masterKey spkm then encryptSpkms masterKey spkms else throw .crash

/-- Only the record of receive index 0 that old wallets have is rewritten. -/
def encryptQuantumKeysForWallet (masterKey : Bytes) : WalletM Key Bool := do
  let w ← get
  match w.wallet.quantumManager, w.wallet.quantumProgramBytes with
  | some mgr, some program =>
    match mgr.serializeDualKeys with
    | none => pure false
    | some plain =>
      match env.crypter.encryptSecret masterKey plain (quantumWalletIv env) with
      | none => pure false
      | some cipher =>
        let packed :=
          if w.wallet.quantumBlobFormat ≥ quantumPackV2 then
            packQuantumDbRecordV2 true w.wallet.quantumKeyOrigin program cipher
          else packQuantumDbRecordV1 true program cipher
        if ← dbWrite (WalletDb.writeQuantum .state packed) then
          modifyWallet fun wallet =>
            { wallet with quantumSecretStorage := cipher, quantumSecretIsEncrypted := true }
          pure true
        else pure false
  | _, _ => pure true

def writeMasterKey (nID : Nat) (masterKey : CMasterKey) : WalletM Key Bool :=
  dbWrite fun db => { db with masterKeys := mapInsert nID masterKey db.masterKeys }

/-- The wallet's secrets are encrypted in one transaction, and every failure in
it is fatal. -/
def encryptSecrets (plainMasterKey : Bytes) (nID : Nat) (masterKey : CMasterKey) :
    WalletM Key PUnit := do
  let _ ← writeMasterKey nID masterKey
  let w ← get
  encryptSpkms env plainMasterKey w.wallet.spkManagers
  if ← encryptQuantumKeysForWallet env plainMasterKey then
    if ← encryptWalletMnemonicForWallet env plainMasterKey then
      if ← dbWrite fun db => db then pure ⟨⟩ else throw .crash
    else throw .crash
  else throw .crash

def setupIfBlank : WalletM Key PUnit := do
  let w ← get
  if w.wallet.walletFlags.blankWallet && w.wallet.spkManagers.isEmpty then
    setupDescriptorScriptPubKeyMans env
  else pure ⟨⟩

def encryptWallet (passphrase : Bytes) : WalletM Key Bool := do
  let w ← get
  if w.wallet.isCrypted then pure false
  else
    let plainMasterKey ← nextOutcome
    let salt ← nextOutcome
    match encryptMasterKey env.crypter passphrase plainMasterKey.random.val
        (salt.random.val.take walletCryptoSaltSize) salt.deriveIterations with
    | none => pure false
    | some masterKey =>
      let nID := w.wallet.nMasterKeyMaxID + 1
      modifyWallet fun wallet =>
        { wallet with
          nMasterKeyMaxID := nID
          mapMasterKeys := mapInsert nID masterKey wallet.mapMasterKeys }
      if ← dbWrite fun db => db then
        let w ← get
        restoringDb w.db (fun _ => true) (encryptSecrets env plainMasterKey.random.val nID masterKey)
        let _ ← lock
        let _ ← unlock env passphrase
        setupIfBlank env
        let _ ← lock
        pure true
      else pure false

/-- A wrong old passphrase leaves the wallet locked. -/
def changeWalletPassphrase (old new : Bytes) : WalletM Key Bool := do
  let w ← get
  let _ ← lock
  go w.wallet.isLocked w.wallet.mapMasterKeys
where
  go (wasLocked : Bool) : List (Nat × CMasterKey) → WalletM Key Bool
    | [] => pure false
    | (nID, masterKey) :: rest => do
      match decryptMasterKey env.crypter old masterKey with
      | none => pure false
      | some plainMasterKey =>
        if ← unlockWithKey env plainMasterKey then
          let o ← nextOutcome
          match encryptMasterKey env.crypter new plainMasterKey masterKey.vchSalt o.deriveIterations with
          | none => pure false
          | some masterKey =>
            modifyWallet fun wallet =>
              { wallet with mapMasterKeys := mapInsert nID masterKey wallet.mapMasterKeys }
            let _ ← writeMasterKey nID masterKey
            if wasLocked then
              let _ ← lock
              pure true
            else pure true
        else go wasLocked rest

/-- Registers the plain expansions of the next `n` indexes. A script that is
there already, or an index that the cache does not cover, stops the load. -/
def registerExpansions (spkm : DescriptorScriptPubKeyMan) (index : Int) :
    Nat → Option DescriptorScriptPubKeyMan
  | 0 => some spkm
  | n + 1 =>
    let desc := spkm.walletDescriptor
    (desc.descriptor.expandFromCache desc.cache index).bind fun scripts =>
      if scripts.any fun script => spkm.mapScriptPubKeys.any fun p => p.1 = script then none
      else
        registerExpansions
          { spkm.registerScripts scripts index with maxCachedIndex := spkm.maxCachedIndex + 1 }
          (index + 1) n

def loadDescriptorScriptPubKeyMan (db : WalletDb) (id : Uint256) (desc : WalletDescriptor) :
    Option DescriptorScriptPubKeyMan :=
  if id ≠ desc.descriptor.id then none
  else
    let desc := { desc with cache := db.descriptorCaches id }
    let keys := (db.descriptorKeys.filter fun p => p.1 = id).map (·.2)
    let cryptedKeys := (db.descriptorCKeys.filter fun p => p.1 = id).map (·.2)
    (registerExpansions (.ofDescriptor desc) desc.rangeStart
      (desc.rangeEnd - desc.rangeStart).toNat).map fun spkm =>
        { spkm with
          mapKeys := keys
          mapCryptedKeys := if keys.isEmpty then cryptedKeys else [] }

def maxMasterKeyID (masterKeys : List (Nat × CMasterKey)) : Nat :=
  masterKeys.foldl (fun maxID entry => max maxID entry.1) 0

theorem storedActive_apart (external internal : Option Uint256) :
    ∀ id, (if external = internal then none else external) = some id → internal ≠ some id := by
  intro id h h'
  by_cases he : external = internal
  · simp [he] at h
  · rw [if_neg he] at h
    exact he (h.trans h'.symm)

def readWallet (db : WalletDb) (keypoolSize : Nat) : Option (CWallet Key) :=
  (db.walletDescriptors.mapM fun entry => loadDescriptorScriptPubKeyMan db entry.1 entry.2).bind
    fun spkms =>
      let known (id : Option Uint256) : Bool := id.all fun id => spkms.any fun spkm => spkm.getID = id
      if known db.activeExternalSpk && known db.activeInternalSpk then
        some { CWallet.closed Key keypoolSize with
          loaded := true
          spkManagers := spkms
          cachedSpks := spkms.flatMap fun spkm =>
            (spkm.mapScriptPubKeys.map fun p => p.1).dedup.map fun script => (script, spkm.getID)
          externalSpkManager :=
            if db.activeExternalSpk = db.activeInternalSpk then none else db.activeExternalSpk
          internalSpkManager := db.activeInternalSpk
          active_apart := storedActive_apart db.activeExternalSpk db.activeInternalSpk
          mapMasterKeys := db.masterKeys
          nMasterKeyMaxID := maxMasterKeyID db.masterKeys
          walletFlags := db.flags
          mnemonicStorage := db.mnemonic
          mnemonicIsEncrypted := !db.mnemonic.isEmpty && !db.masterKeys.isEmpty }
      else none

def upgradeIfPlain : WalletM Key Bool := do
  let w ← get
  if w.wallet.quantumKeyOrigin ≠ quantumOriginHdMaster ∧ !w.wallet.quantumSecretIsEncrypted then
    maybeUpgradeQuantumStateToHdOrigin env
  else pure true

def loadQuantumRecordsFromDatabase : WalletM Key DBErrors := do
  modifyWallet fun wallet =>
    { wallet with
      quantumProgramBytes := none
      quantumSecretStorage := []
      quantumSecretIsEncrypted := false
      quantumManager := none
      quantumBlobFormat := quantumPackV2
      quantumKeyOrigin := 0 }
  let w ← get
  match w.db.readQuantum .state with
  | none =>
    loadQuantumChangeIndexStates env
    pure .loadOk
  | some raw =>
    let err ← applyQuantumStateFromPackedBlob raw
    if err ≠ .loadOk then pure err
    else
      let _ ← upgradeIfPlain env
      repairQuantumReceiveIndexStates env
      loadQuantumChangeIndexStates env
      pure .loadOk

def topUpActive (internal : Bool) : WalletM Key PUnit := do
  let w ← get
  match w.wallet.getScriptPubKeyMan internal with
  | none => pure ⟨⟩
  | some spkm =>
    let _ ← topUp env spkm.getID 0

def topUpKeyPool : WalletM Key PUnit := do
  topUpActive env false
  topUpActive env true

def closeWallet (w : World Key) : World Key :=
  { w with wallet := CWallet.closed Key w.wallet.keypoolSize }

def loadWallet : WalletM Key DBErrors := do
  let w ← get
  match readWallet w.db w.wallet.keypoolSize with
  | none =>
    modify closeWallet
    pure .corrupt
  | some wallet =>
    modifyWallet fun _ => wallet
    let err ← loadQuantumRecordsFromDatabase env
    if err ≠ .loadOk then
      modify closeWallet
      pure err
    else
      onAbort closeWallet (topUpKeyPool env)
      pure .loadOk
end

end Byze
