import Byze.Wallet.KeyMaterial

/-! Handing out addresses: the key space an index of a descriptor belongs to,
the keypool with its quantum programs, and new destinations. -/

namespace Byze

def witnessV1Script (program : Uint256) : CScript := op1 :: 0x20 :: program.val

section
variable {Key : Type} (env : WalletEnv Key)

/-- The first index of the active change descriptor that is in the change key
space. -/
def quantumChangeBaseFor (id : Uint256) : WalletM Key (Option Int) := do
  let w ← get
  if w.wallet.internalSpkManager ≠ some id then pure none
  else
    match w.wallet.quantumChangeBase id with
    | some base => pure (some base)
    | none =>
      match w.db.quantumChangeBase id with
      | none => pure none
      | some base =>
        if base ≥ 0 then
          modifyWallet fun wallet =>
            { wallet with quantumChangeBase := Function.update wallet.quantumChangeBase id (some base) }
          pure (some base)
        else pure none

/-- The program stored for a key, or else the program that the root derives. -/
def cachedOrDerivedProgram (ref : QuantumKeyRef) : WalletM Key (Option Uint256) := do
  let w ← get
  match readCachedQuantumProgram w.db ref with
  | some program => pure (some program)
  | none =>
    match tryGetTaprootDescriptorRootExtKey env w.wallet with
    | none => pure none
    | some master => deriveQuantumProgramForKey env master ref

def getQuantumTaprootAtIndex (index : Nat) : WalletM Key (Option Uint256) :=
  cachedOrDerivedProgram env ⟨false, index⟩

def getQuantumTaprootForSpkmIndex (id : Uint256) (index : Int) : WalletM Key (Option Uint256) := do
  let w ← get
  if w.wallet.quantumSetupInProgress ∨ index < 0 then pure none
  else
    match ← quantumChangeBaseFor id with
    | none => getQuantumTaprootAtIndex env index.toNat
    | some base =>
      if index < base then getQuantumTaprootAtIndex env index.toNat
      else
        match ← cachedOrDerivedProgram env ⟨true, (index - base).toNat⟩ with
        | none => pure none
        | some program =>
          rememberChangeProgram program (index - base).toNat
          pure (some program)

def setWalletFlags (f : WalletFlags → WalletFlags) : WalletM Key PUnit := do
  modifyWallet fun wallet => { wallet with walletFlags := f wallet.walletFlags }
  let w ← get
  if ← dbWrite fun db => { db with flags := w.wallet.walletFlags } then pure ⟨⟩
  else throw (.exception "SetWalletFlagWithDB: writing wallet flags failed")

def writeQuantumChangeBase (id : Uint256) (base : Int) : WalletM Key Bool :=
  dbWrite fun db => { db with quantumChangeBase := Function.update db.quantumChangeBase id (some base) }

def ensureQuantumStateForSpkmIndex (id : Uint256) (index : Int) : WalletM Key Bool := do
  if index < 0 then pure false
  else
    match ← quantumChangeBaseFor id with
    | none => ensureQuantumIndexStateForReceiveIndex env index.toNat
    | some base =>
      if index < base then ensureQuantumIndexStateForReceiveIndex env index.toNat
      else
        let w ← get
        if w.wallet.walletFlags.quantumChangeDomain then
          ensureQuantumChangeIndexState env (index - base).toNat
        else if ← writeQuantumChangeBase id base then
          setWalletFlags fun flags => { flags with quantumChangeDomain := true }
          ensureQuantumChangeIndexState env (index - base).toNat
        else pure false

def ensureEach (ensure : Nat → WalletM Key Bool) : Nat → WalletM Key PUnit
  | 0 => pure ⟨⟩
  | n + 1 => do
    ensureEach ensure n
    let _ ← ensure n

def repairQuantumReceiveIndexStates : WalletM Key PUnit := do
  let w ← get
  match w.wallet.getScriptPubKeyMan false with
  | none => pure ⟨⟩
  | some spkm =>
    ensureEach (ensureQuantumIndexStateForReceiveIndex env) spkm.walletDescriptor.nextIndex.toNat

def loadQuantumChangeIndexStates : WalletM Key PUnit := do
  modifyWallet fun wallet =>
    { wallet with quantumChangePrograms := fun _ => none, quantumChangeBase := fun _ => none }
  let w ← get
  match w.wallet.getScriptPubKeyMan true with
  | none => pure ⟨⟩
  | some spkm =>
    let setBase (base : Int) : WalletM Key PUnit := modifyWallet fun wallet =>
      { wallet with
        quantumChangeBase := Function.update wallet.quantumChangeBase spkm.getID (some base) }
    match (w.db.quantumChangeBase spkm.getID).filter (0 ≤ ·) with
    | none =>
      -- The log says that change addresses will not be handed out.
      if w.wallet.walletFlags.quantumChangeDomain then pure ⟨⟩
      else setBase spkm.walletDescriptor.nextIndex
    | some base =>
      setBase base
      ensureEach (ensureQuantumChangeIndexState env) (spkm.walletDescriptor.nextIndex - base).toNat

def updateSpkm (id : Uint256) (f : DescriptorScriptPubKeyMan → DescriptorScriptPubKeyMan) :
    WalletM Key PUnit :=
  modifyWallet fun wallet => wallet.updateSpkm id f

def writeDescriptor (desc : WalletDescriptor) : WalletM Key Bool :=
  dbWrite fun db =>
    { db with walletDescriptors := mapInsert desc.descriptor.id desc db.walletDescriptors }

def writeDescriptorCacheItems (id : Uint256) (items : DescriptorCache) : WalletM Key Bool :=
  if items.isEmpty then pure true
  else
    dbWrite fun db =>
      { db with
        descriptorCaches :=
          Function.update db.descriptorCaches id (db.descriptorCaches id ++ items) }

def DescriptorScriptPubKeyMan.registerScripts (scripts : List CScript) (index : Int)
    (spkm : DescriptorScriptPubKeyMan) : DescriptorScriptPubKeyMan :=
  { spkm with
    mapScriptPubKeys := scripts.foldl (fun m script => mapInsert script index m) spkm.mapScriptPubKeys }

def expandAt (wallet : CWallet Key) (spkm : DescriptorScriptPubKeyMan) (index : Int) :
    Option (List CScript × DescriptorCache) :=
  let desc := spkm.walletDescriptor
  match desc.descriptor.expandFromCache desc.cache index with
  | some scripts => some (scripts, [])
  | none =>
    (desc.descriptor.expand (spkm.getKeys env wallet) index).map fun (scripts, items) =>
      (scripts, items.filter (· ∉ desc.cache))

/-- The plain expansion of an index makes way for its quantum program. -/
def substituteScripts (scripts : List CScript) : Option Uint256 → List CScript
  | none => scripts
  | some program => witnessV1Script program :: scripts.tail

def topUpIndex (spkm : DescriptorScriptPubKeyMan) : WalletM Key (Option (List CScript)) := do
  let w ← get
  let id := spkm.getID
  let index := spkm.maxCachedIndex + 1
  match expandAt env w.wallet spkm index with
  | none => pure none
  | some (scripts, newItems) =>
    let qdest ← getQuantumTaprootForSpkmIndex env id index
    let replaced := if qdest.isSome then (scripts.head?.bind quantumProgramOf).toList else []
    updateSpkm id fun spkm =>
      { spkm.registerScripts (substituteScripts scripts qdest) index with
        substitutedExpansions := replaced ++ spkm.substitutedExpansions
        walletDescriptor :=
          { spkm.walletDescriptor with cache := spkm.walletDescriptor.cache ++ newItems } }
    if ← writeDescriptorCacheItems id newItems then
      updateSpkm id fun spkm => { spkm with maxCachedIndex := spkm.maxCachedIndex + 1 }
      pure (some (substituteScripts scripts qdest))
    else throw (.exception "TopUpWithDB: writing cache items failed")

def topUpIndices (id : Uint256) : Nat → List CScript → WalletM Key (Option (List CScript))
  | 0, newSpks => pure (some newSpks)
  | n + 1, newSpks => do
    let w ← get
    match w.wallet.findSpkm id with
    | none => pure none
    | some spkm =>
      match ← topUpIndex env spkm with
      | none => pure none
      | some scripts => topUpIndices id n (newSpks ++ scripts)

def topUpCallback (newSpks : List CScript) (id : Uint256) : WalletM Key PUnit :=
  modifyWallet fun wallet =>
    { wallet with cachedSpks := wallet.cachedSpks ++ newSpks.dedup.map fun script => (script, id) }

def finishTopUp (id : Uint256) (newRangeEnd : Int) (newSpks : List CScript) : WalletM Key Bool := do
  updateSpkm id fun spkm =>
    { spkm with walletDescriptor := { spkm.walletDescriptor with rangeEnd := newRangeEnd } }
  let w ← get
  match w.wallet.findSpkm id with
  | none => pure false
  | some spkm =>
    let _ ← writeDescriptor spkm.walletDescriptor
    if spkm.walletDescriptor.rangeEnd - 1 = spkm.maxCachedIndex then
      topUpCallback newSpks id
      pure true
    else throw .crash

/-- A descriptor without a range only has its first item cached. -/
def DescriptorScriptPubKeyMan.fixRange (spkm : DescriptorScriptPubKeyMan) :
    DescriptorScriptPubKeyMan :=
  if spkm.walletDescriptor.descriptor.isRange then spkm
  else
    { spkm with walletDescriptor := { spkm.walletDescriptor with rangeStart := 0, rangeEnd := 1 } }

def topUpWithDB (id : Uint256) (size : Nat) : WalletM Key Bool := do
  let w ← get
  match w.wallet.findSpkm id with
  | none => pure false
  | some spkm =>
    let desc := spkm.walletDescriptor
    let targetSize := if size > 0 then size else w.wallet.keypoolSize
    let newRangeEnd :=
      if desc.descriptor.isRange then max (desc.nextIndex + targetSize) (spkm.maxCachedIndex + 1) else 1
    updateSpkm id (·.fixRange)
    match ← topUpIndices env id (newRangeEnd - (spkm.maxCachedIndex + 1)).toNat [] with
    | none => pure false
    | some newSpks => finishTopUp id newRangeEnd newSpks

def topUp (id : Uint256) (size : Nat) : WalletM Key Bool := do
  if ← dbWrite fun db => db then
    let w ← get
    restoringDb w.db (fun _ => true) do
      let res ← topUpWithDB env id size
      if ← dbWrite fun db => db then pure res
      else throw (.exception "Error during descriptors keypool top up. Cannot commit changes")
  else pure false

def DescriptorScriptPubKeyMan.isDescriptorExpansionScript (spkm : DescriptorScriptPubKeyMan)
    (script : CScript) : Bool :=
  ((spkm.mapScriptPubKeys.lookup script).bind fun index =>
    spkm.walletDescriptor.descriptor.expandFromCache spkm.walletDescriptor.cache index).any
      fun scripts => decide (script ∈ scripts)

def DescriptorScriptPubKeyMan.isMine (spkm : DescriptorScriptPubKeyMan) (script : CScript) : Bool :=
  spkm.mapScriptPubKeys.any fun p => p.1 = script

/-- Registers the quantum programs of the indexes from `start` on, and gives the
scripts that are new. -/
def registerLookahead (id : Uint256) (start : Int) : Nat → WalletM Key (List CScript)
  | 0 => pure []
  | n + 1 => do
    let newSpks ← registerLookahead id start n
    match ← getQuantumTaprootForSpkmIndex env id (start + n) with
    | none => pure newSpks
    | some program =>
      let w ← get
      if (w.wallet.findSpkm id).any (·.isMine (witnessV1Script program)) then pure newSpks
      else
        updateSpkm id (·.registerScripts [witnessV1Script program] (start + n))
        pure (newSpks ++ [witnessV1Script program])

def refreshQuantumLookahead (spkm : DescriptorScriptPubKeyMan) : WalletM Key PUnit := do
  let desc := spkm.walletDescriptor
  let newSpks ← registerLookahead env spkm.getID desc.nextIndex (desc.rangeEnd - desc.nextIndex).toNat
  topUpCallback newSpks spkm.getID

def DescriptorScriptPubKeyMan.canGetAddresses (spkm : DescriptorScriptPubKeyMan) : Bool :=
  let desc := spkm.walletDescriptor
  desc.descriptor.isSingleType && desc.descriptor.isRange &&
    (spkm.havePrivateKeys || desc.nextIndex < desc.rangeEnd)

def keypoolRanOut : String := "Error: Keypool ran out, please call keypoolrefill first"

def takeDestination (id : Uint256) : WalletM Key (Except String Uint256) := do
  let w ← get
  match w.wallet.findSpkm id with
  | none => pure (.error keypoolRanOut)
  | some spkm =>
    let desc := spkm.walletDescriptor
    match desc.descriptor.expandFromCache desc.cache desc.nextIndex with
    | none => pure (.error keypoolRanOut)
    | some _ =>
      match ← getQuantumTaprootForSpkmIndex env id desc.nextIndex with
      | none => pure (.error ("Cannot derive a quantum address: the quantum key is unavailable. " ++
          "Unlock the wallet (or import the quantum HD key) and try again."))
      | some program =>
        updateSpkm id fun spkm =>
          { spkm.registerScripts [witnessV1Script program] desc.nextIndex with
            walletDescriptor := { spkm.walletDescriptor with nextIndex := desc.nextIndex + 1 } }
        let _ ← writeDescriptor { desc with nextIndex := desc.nextIndex + 1 }
        if ← ensureQuantumStateForSpkmIndex env id desc.nextIndex then pure (.ok program)
        else pure (.error "Error: failed to persist quantum signing state for new address")

def getNewDestinationOf (spkm : DescriptorScriptPubKeyMan) : WalletM Key (Except String Uint256) := do
  if !spkm.canGetAddresses then pure (.error "No addresses available")
  else
    match spkm.walletDescriptor.descriptor.outputType with
    | none => throw .crash
    | some type =>
      if type ≠ .bech32m then
        throw (.exception ("GetNewDestination: Types are inconsistent. Stored type does not match " ++
          "type of newly generated address"))
      else
        let _ ← topUp env spkm.getID 0
        let w ← get
        match w.wallet.findSpkm spkm.getID with
        | none => pure (.error keypoolRanOut)
        | some spkm =>
          if spkm.walletDescriptor.rangeEnd ≤ spkm.maxCachedIndex then
            if ← topUp env spkm.getID 1 then takeDestination env spkm.getID
            else pure (.error keypoolRanOut)
          else takeDestination env spkm.getID

def getNewDestination (internal : Bool) : WalletM Key (Except String Uint256) := do
  let w ← get
  match w.wallet.getScriptPubKeyMan internal with
  | none => pure (.error "Error: No bech32m addresses available.")
  | some spkm => getNewDestinationOf env spkm

def getNewAddress (internal : Bool) : WalletM Key (Except String Uint256) := do
  let w ← get
  if !(w.wallet.getScriptPubKeyMan internal).any (·.canGetAddresses) then
    throw (.exception "Error: This wallet has no available keys")
  else if w.wallet.isCrypted && w.wallet.isLocked then
    throw (.exception "Error: Please enter the wallet passphrase with walletpassphrase first.")
  else if ← ensureQuantumKeysForReceive env then getNewDestination env internal
  else
    throw (.exception ("Could not persist quantum signing keys to the wallet database; refusing to " ++
      (if internal then "create a change address" else "create an address") ++
      " that depends on external key files."))

def CWallet.getScriptPubKeyMans (wallet : CWallet Key) (script : CScript) : List Uint256 :=
  ((wallet.cachedSpks.filter fun p => p.1 = script).map (·.2)).dedup

def advanceNextIndex (id : Uint256) : Nat → WalletM Key PUnit
  | 0 => pure ⟨⟩
  | n + 1 => do
    let w ← get
    match w.wallet.findSpkm id with
    | none => pure ⟨⟩
    | some spkm =>
      let desc := spkm.walletDescriptor
      if (desc.descriptor.expandFromCache desc.cache desc.nextIndex).isNone then
        throw (.exception "MarkUnusedAddresses: Unable to expand descriptor from cache")
      else
        updateSpkm id fun spkm =>
          { spkm with
            walletDescriptor :=
              { spkm.walletDescriptor with nextIndex := spkm.walletDescriptor.nextIndex + 1 } }
        advanceNextIndex id n

/-- A failure to store the keys of a used index is only logged. -/
def storeUsedIndex (spkm : DescriptorScriptPubKeyMan) (script : CScript) (index : Int) :
    WalletM Key Bool :=
  if spkm.isDescriptorExpansionScript script then pure true
  else ensureQuantumStateForSpkmIndex env spkm.getID index

def markUnusedAddresses (script : CScript) (id : Uint256) : WalletM Key PUnit := do
  let w ← get
  match w.wallet.findSpkm id with
  | none => pure ⟨⟩
  | some spkm =>
    match spkm.mapScriptPubKeys.lookup script with
    | none => pure ⟨⟩
    | some index =>
      advanceNextIndex id (index - spkm.walletDescriptor.nextIndex + 1).toNat
      let _ ← storeUsedIndex env spkm script index
      let _ ← topUp env id 0

def markScriptUsed (script : CScript) : WalletM Key PUnit := do
  let w ← get
  go (w.wallet.getScriptPubKeyMans script)
where
  go : List Uint256 → WalletM Key PUnit
    | [] => pure ⟨⟩
    | id :: ids => do
      markUnusedAddresses env script id
      go ids
end

end Byze
