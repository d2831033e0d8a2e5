import Byze.Wallet.Address

/-! Descriptors coming into a wallet: the ones a new wallet sets up from its
entropy, with the recovery phrase it stores, and imported ones. -/

namespace Byze

def mnemonicWalletIvText : Bytes :=
  [0x62, 0x79, 0x7a, 0x65, 0x5f, 0x77, 0x61, 0x6c, 0x6c, 0x65, 0x74, 0x5f, 0x6d, 0x6e, 0x65, 0x6d,
    0x6f, 0x6e, 0x69, 0x63, 0x5f, 0x69, 0x76, 0x5f, 0x76, 0x31]

def CExtKey.chaincode (master : CExtKey) : Bytes := (master.val.drop 9).take 32

section
variable {Key : Type} (env : WalletEnv Key)

def mnemonicWalletIv : Uint256 := hash256 env.hashes mnemonicWalletIvText

def writeWalletMnemonic (data : Bytes) : WalletM Key Bool :=
  dbWrite fun db => { db with mnemonic := data }

def persistWalletMnemonic (mnemonic : Bytes) : WalletM Key Bool := do
  let w ← get
  let enc := w.wallet.encrypting
  let payload? :=
    if enc then env.crypter.encryptSecret w.wallet.vMasterKey mnemonic (mnemonicWalletIv env)
    else some mnemonic
  match payload? with
  | none => pure false
  | some payload =>
    if ← dbWrite fun db => { db with mnemonic := payload, mnemonicPhrase := mnemonic } then
      modifyWallet fun wallet =>
        { wallet with mnemonicStorage := payload, mnemonicIsEncrypted := enc }
      pure true
    else pure false

def encryptWalletMnemonicForWallet (masterKey : Bytes) : WalletM Key Bool := do
  let w ← get
  if w.wallet.mnemonicStorage.isEmpty then pure true
  else if w.wallet.mnemonicIsEncrypted then pure true
  else
    match env.crypter.encryptSecret masterKey w.wallet.mnemonicStorage (mnemonicWalletIv env) with
    | none => pure false
    | some cipher =>
      if ← writeWalletMnemonic cipher then
        modifyWallet fun wallet =>
          { wallet with mnemonicStorage := cipher, mnemonicIsEncrypted := true }
        pure true
      else pure false

def getWalletMnemonic (wallet : CWallet Key) : Option Bytes :=
  if wallet.mnemonicStorage.isEmpty then none
  else if !wallet.mnemonicIsEncrypted then some wallet.mnemonicStorage
  else if wallet.vMasterKey.isEmpty then none
  else env.crypter.decryptSecret wallet.vMasterKey wallet.mnemonicStorage (mnemonicWalletIv env)

def addScriptPubKeyMan (spkm : DescriptorScriptPubKeyMan) (wallet : CWallet Key) : CWallet Key :=
  { wallet with
    spkManagers := spkm :: wallet.spkManagers.filter fun other => other.getID ≠ spkm.getID }

def removeScriptPubKeyMan (id : Uint256) (wallet : CWallet Key) : CWallet Key :=
  { wallet with spkManagers := wallet.spkManagers.filter fun spkm => spkm.getID ≠ id }

/-- The plain key is erased once the encrypted one is there. -/
def writeCryptedDescriptorKey (id : Uint256) (key : CKey) (pubkey secret : Bytes) :
    WalletM Key Bool := do
  if ← dbWrite fun db =>
      { db with descriptorCKeys := (id, pubkey, secret) :: db.descriptorCKeys } then
    let _ ← dbWrite fun db =>
      { db with descriptorKeys := db.descriptorKeys.filter fun p => p ≠ (id, key) }
    pure true
  else pure false

def addDescriptorKeyWithDB (id : Uint256) (key : CKey) : WalletM Key Bool := do
  let w ← get
  let pubkey := env.getPubKey key
  let known := (w.wallet.findSpkm id).any fun spkm =>
    decide (key ∈ spkm.mapKeys) || spkm.mapCryptedKeys.any fun p => p.1 = pubkey
  if known then pure true
  else if w.wallet.isCrypted then
    if w.wallet.isLocked then pure false
    else
      match env.crypter.encryptSecret w.wallet.vMasterKey key.val (hash256 env.hashes pubkey) with
      | none => pure false
      | some secret =>
        updateSpkm id fun spkm =>
          { spkm with mapCryptedKeys := (pubkey, secret) :: spkm.mapCryptedKeys }
        writeCryptedDescriptorKey id key pubkey secret
  else
    updateSpkm id fun spkm => { spkm with mapKeys := key :: spkm.mapKeys }
    dbWrite fun db => { db with descriptorKeys := (id, key) :: db.descriptorKeys }

def addDescriptorKeys (id : Uint256) : List CKey → WalletM Key PUnit
  | [] => pure ⟨⟩
  | key :: keys => do
    if ← addDescriptorKeyWithDB env id key then addDescriptorKeys id keys
    else throw (.exception "AddDescriptorKey: writing descriptor private key failed")

def clearActive (id : Uint256) (other : Option Uint256) : Option Uint256 :=
  if other = some id then none else other

theorem clearActive_ne (id : Uint256) (other : Option Uint256) : clearActive id other ≠ some id := by
  simp [clearActive]

def loadActiveScriptPubKeyMan (id : Uint256) (internal : Bool) (wallet : CWallet Key) :
    CWallet Key :=
  if internal then
    { wallet with
      internalSpkManager := some id
      externalSpkManager := clearActive id wallet.externalSpkManager
      active_apart := fun _ h h' => clearActive_ne id _ (h.trans h'.symm) }
  else
    { wallet with
      externalSpkManager := some id
      internalSpkManager := clearActive id wallet.internalSpkManager
      active_apart := fun _ h h' => clearActive_ne id _ (h'.trans h.symm) }

def addActiveScriptPubKeyMan (id : Uint256) (internal : Bool) : WalletM Key PUnit := do
  if ← dbWrite fun db =>
      if internal then { db with activeInternalSpk := some id }
      else { db with activeExternalSpk := some id } then
    modifyWallet (loadActiveScriptPubKeyMan id internal)
  else
    throw (.exception "AddActiveScriptPubKeyManWithDb: writing active ScriptPubKeyMan id failed")

def deactivateScriptPubKeyMan (id : Uint256) (internal : Bool) : WalletM Key PUnit := do
  let w ← get
  if (if internal then w.wallet.internalSpkManager else w.wallet.externalSpkManager) = some id then
    if ← dbWrite fun db =>
        if internal then { db with activeInternalSpk := none }
        else { db with activeExternalSpk := none } then
      modifyWallet fun wallet =>
        if internal then { wallet with internalSpkManager := none, active_apart := nofun }
        else { wallet with externalSpkManager := none, active_apart := nofun }
    else
      throw (.exception "DeactivateScriptPubKeyMan: erasing active ScriptPubKeyMan id failed")
  else pure ⟨⟩

def setupDescriptorGeneration (master : CExtKey) (desc : WalletDescriptor) : WalletM Key PUnit := do
  if ← addDescriptorKeyWithDB env desc.descriptor.id master.key then
    if ← writeDescriptor desc then
      let _ ← topUpWithDB env desc.descriptor.id 0
      setWalletFlags fun flags => { flags with blankWallet := false }
    else throw (.exception "SetupDescriptorGeneration: writing descriptor failed")
  else
    throw (.exception "SetupDescriptorGeneration: writing descriptor master private key failed")

def setupDescriptorScriptPubKeyMan (master : CExtKey) (internal : Bool) : WalletM Key PUnit := do
  let w ← get
  if w.wallet.isLocked then
    throw (.exception "SetupDescriptorScriptPubKeyMan: Wallet is locked, cannot setup new descriptors")
  else
    let desc := env.generateWalletDescriptor master internal
    modifyWallet (addScriptPubKeyMan (.ofDescriptor desc))
    -- The manager only joins the wallet's managers when its generation is done.
    onAbort (World.modifyWallet (removeScriptPubKeyMan desc.descriptor.id))
      (setupDescriptorGeneration env master desc)
    addActiveScriptPubKeyMan desc.descriptor.id internal

def setSetupInProgress (b : Bool) (wallet : CWallet Key) : CWallet Key :=
  { wallet with quantumSetupInProgress := b }

def refreshActiveLookahead (internal : Bool) : WalletM Key PUnit := do
  let w ← get
  match w.wallet.getScriptPubKeyMan internal with
  | none => pure ⟨⟩
  | some spkm => refreshQuantumLookahead env spkm

def setupDescriptorScriptPubKeyMansFrom (master : CExtKey) : WalletM Key PUnit := do
  modifyWallet (setSetupInProgress true)
  onAbort (World.modifyWallet (setSetupInProgress false)) do
    setupDescriptorScriptPubKeyMan env master false
    setupDescriptorScriptPubKeyMan env master true
  modifyWallet (setSetupInProgress false)
  if ← persistQuantumKeyMaterialFromHdMaster env master false then
    let w ← get
    match w.wallet.getScriptPubKeyMan true with
    | none =>
      throw (.exception "SetupDescriptorScriptPubKeyMans: failed to record the quantum change key space")
    | some changeSpkm =>
      if ← writeQuantumChangeBase changeSpkm.getID 0 then
        modifyWallet fun wallet =>
          { wallet with
            quantumChangeBase := Function.update wallet.quantumChangeBase changeSpkm.getID (some 0) }
        refreshActiveLookahead env false
        refreshActiveLookahead env true
      else
        throw (.exception "SetupDescriptorScriptPubKeyMans: failed to record the quantum change key space")
  else
    throw (.exception
      "SetupDescriptorScriptPubKeyMans: failed to derive wallet-bound quantum keys from HD master")

/-- The phrase encodes the entropy, so it gives back the same master key. -/
def storedMnemonicMatches (wallet : CWallet Key) (entropy : Uint256) : Bool :=
  getWalletMnemonic env wallet = some (env.encodeMnemonic entropy) &&
    match env.masterExtKeyFromEntropy entropy, tryGetTaprootDescriptorRootExtKey env wallet with
    | none, _ => false
    | some _, none => true
    | some fromMnemonic, some active =>
      env.getPubKey fromMnemonic.key = env.getPubKey active.key && fromMnemonic.chaincode = active.chaincode

def setupDescriptorScriptPubKeyMansFromEntropy (entropy : Uint256) : WalletM Key PUnit := do
  let w ← get
  if !w.wallet.spkManagers.isEmpty then
    if storedMnemonicMatches env w.wallet entropy then pure ⟨⟩
    else
      throw (.exception "SetupDescriptorScriptPubKeyMansFromEntropy: wallet already has keys")
  else if !w.wallet.mnemonicStorage.isEmpty || w.wallet.quantumProgramBytes.isSome then
    throw (.exception "SetupDescriptorScriptPubKeyMansFromEntropy: wallet already initialized")
  else
    match env.masterExtKeyFromEntropy entropy with
    | none =>
      throw (.exception "SetupDescriptorScriptPubKeyMansFromEntropy: failed to derive HD master from entropy")
    | some master =>
      setupDescriptorScriptPubKeyMansFrom env master
      if ← persistWalletMnemonic env (env.encodeMnemonic entropy) then pure ⟨⟩
      else
        throw (.exception
          "SetupDescriptorScriptPubKeyMansFromEntropy: failed to persist BIP39 recovery phrase")

def setupFromEntropy (entropy : Uint256) : WalletM Key Bool :=
  runWithinTxn do
    setupDescriptorScriptPubKeyMansFromEntropy env entropy
    pure true

def setupDescriptorScriptPubKeyMans : WalletM Key PUnit := do
  let o ← nextOutcome
  if ← setupFromEntropy env o.random then pure ⟨⟩
  else throw (.exception "Error: cannot process db transaction for descriptors setup")

/-- The range of an update has to include the current one. -/
def canUpdateToWalletDescriptor (spkm : DescriptorScriptPubKeyMan) (desc : WalletDescriptor) : Bool :=
  !desc.descriptor.isRange ||
    (desc.rangeStart ≤ spkm.walletDescriptor.rangeStart && spkm.walletDescriptor.rangeEnd ≤ desc.rangeEnd)

def updateWalletDescriptor (desc : WalletDescriptor) (spkm : DescriptorScriptPubKeyMan) :
    DescriptorScriptPubKeyMan :=
  { spkm with walletDescriptor := desc, maxCachedIndex := -1, substitutedExpansions := [] }

def addWalletDescriptor (desc : WalletDescriptor) (keys : List CKey) : WalletM Key (Except String PUnit) := do
  let w ← get
  let id := desc.descriptor.id
  match w.wallet.findSpkm id with
  | some spkm =>
    if canUpdateToWalletDescriptor spkm desc then
      updateSpkm id (updateWalletDescriptor desc)
      finish id
    else
      pure (.error ("new range must include current range = [" ++
        toString spkm.walletDescriptor.rangeStart ++ "," ++
        toString (spkm.walletDescriptor.rangeEnd - 1) ++ "]"))
  | none =>
    modifyWallet (addScriptPubKeyMan (.ofDescriptor desc))
    finish id
where
  finish (id : Uint256) : WalletM Key (Except String PUnit) := do
    addDescriptorKeys env id keys
    if ← topUp env id 0 then
      let w ← get
      match w.wallet.findSpkm id with
      | none => pure (.error "Could not top up scriptPubKeys")
      | some spkm =>
        if ← writeDescriptor spkm.walletDescriptor then pure (.ok ⟨⟩)
        else throw (.exception "WriteDescriptor: writing descriptor failed")
    else pure (.error "Could not top up scriptPubKeys")

def processDescriptorImport (desc : WalletDescriptor) (keys : List CKey) (active internal : Bool) :
    WalletM Key (Except String PUnit) := do
  let d := desc.descriptor
  if active && !d.isRange then
    pure (.error ("Active descriptors must be ranged; Byze supports only bech32m (witness v1) " ++
      "for active use"))
  else if active && !d.isSingleType then
    pure (.error "Combo descriptors cannot be set to active")
  else if keys.isEmpty then
    pure (.error ("Cannot import descriptor without private keys to a wallet with private keys " ++
      "enabled"))
  else
    match ← addWalletDescriptor env desc keys with
    | .error e => pure (.error e)
    | .ok _ =>
      match d.outputType with
      | none => pure (.ok ⟨⟩)
      | some type =>
        if type = .bech32m then
          if active then addActiveScriptPubKeyMan d.id internal
          else deactivateScriptPubKeyMan d.id internal
          pure (.ok ⟨⟩)
        else if active then
          pure (.error "Byze supports only bech32m descriptors for active use")
        else pure (.ok ⟨⟩)
end

end Byze
