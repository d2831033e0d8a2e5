import Byze.Lib.StateWp
import Byze.Wallet.Bip39
import Byze.Wallet.Record

/-! The state of a descriptor wallet: its database, what it holds in memory, and
the outcomes of the calls that can fail. Programs of the wallet change this
state and stop early in a crash or an exception. -/

namespace Byze

/-- The 74 bytes that an extended private key is encoded in. -/
abbrev CExtKey := { b : Bytes // b.length = 74 }

abbrev CKey := Uint256

def CExtKey.key (master : CExtKey) : CKey :=
  ⟨master.val.drop 42, by rw [List.length_drop, master.property]⟩

inductive OutputType where
  | legacy | p2shSegwit | bech32 | bech32m
  deriving DecidableEq

/-- The extended public keys from which scripts are expanded without private
keys. -/
abbrev DescriptorCache := List Bytes

/-- An output descriptor, through what the wallet asks of it. `rootExtKey` is
the extended key read off its private string, given the private keys at hand,
and without them there is no private string. -/
structure Descriptor where
  id : Uint256
  outputType : Option OutputType
  isRange : Bool
  isSingleType : Bool
  expandFromCache : DescriptorCache → Int → Option (List CScript)
  expand : List CKey → Int → Option (List CScript × DescriptorCache)
  rootExtKey : List CKey → Option CExtKey
  rootExtKey_nil : rootExtKey [] = none

structure WalletDescriptor where
  descriptor : Descriptor
  cache : DescriptorCache
  rangeStart : Int
  rangeEnd : Int
  nextIndex : Int

structure DescriptorScriptPubKeyMan where
  walletDescriptor : WalletDescriptor
  mapScriptPubKeys : List (CScript × Int)
  maxCachedIndex : Int
  substitutedExpansions : List Uint256
  mapKeys : List CKey
  mapCryptedKeys : List (Bytes × Bytes)
  decryptionThoroughlyChecked : Bool

def DescriptorScriptPubKeyMan.getID (spkm : DescriptorScriptPubKeyMan) : Uint256 :=
  spkm.walletDescriptor.descriptor.id

def DescriptorScriptPubKeyMan.ofDescriptor (desc : WalletDescriptor) : DescriptorScriptPubKeyMan :=
  ⟨desc, [], -1, [], [], [], false⟩

inductive QuantumDbKey where
  | state
  | indexState (receiveIndex : Nat)
  | changeIndexState (changeIndex : Nat)
  deriving DecidableEq

structure WalletFlags where
  blankWallet : Bool
  quantumChangeDomain : Bool
  deriving DecidableEq

/-- `mnemonicPhrase` is the phrase that was last persisted. -/
structure WalletDb where
  quantum : QuantumDbKey → Option Bytes
  quantumPending : Option Nat
  quantumChangeBase : Uint256 → Option Int
  walletDescriptors : List (Uint256 × WalletDescriptor)
  descriptorCaches : Uint256 → DescriptorCache
  descriptorKeys : List (Uint256 × CKey)
  descriptorCKeys : List (Uint256 × Bytes × Bytes)
  activeExternalSpk : Option Uint256
  activeInternalSpk : Option Uint256
  masterKeys : List (Nat × CMasterKey)
  flags : WalletFlags
  mnemonic : Bytes
  mnemonicPhrase : Bytes

/-- A wallet in memory. A wallet that is not `loaded` has lost its memory in a
crash or could not be read. No descriptor is active for both purposes. -/
structure CWallet (Key : Type) where
  loaded : Bool
  spkManagers : List DescriptorScriptPubKeyMan
  cachedSpks : List (CScript × Uint256)
  externalSpkManager : Option Uint256
  internalSpkManager : Option Uint256
  mapMasterKeys : List (Nat × CMasterKey)
  nMasterKeyMaxID : Nat
  vMasterKey : Bytes
  walletFlags : WalletFlags
  keypoolSize : Nat
  quantumProgramBytes : Option Uint256
  quantumSecretStorage : Bytes
  quantumSecretIsEncrypted : Bool
  quantumManager : Option (QuantumSafeManager Key)
  quantumBlobFormat : UInt8
  quantumKeyOrigin : UInt8
  quantumChangePrograms : Uint256 → Option Nat
  quantumChangeBase : Uint256 → Option Int
  quantumSetupInProgress : Bool
  mnemonicStorage : Bytes
  mnemonicIsEncrypted : Bool
  active_apart : ∀ id, externalSpkManager = some id → internalSpkManager ≠ some id

def CWallet.closed (Key : Type) (keypoolSize : Nat) : CWallet Key where
  loaded := false
  spkManagers := []
  cachedSpks := []
  externalSpkManager := none
  internalSpkManager := none
  mapMasterKeys := []
  nMasterKeyMaxID := 0
  vMasterKey := []
  walletFlags := ⟨false, false⟩
  keypoolSize := keypoolSize
  quantumProgramBytes := none
  quantumSecretStorage := []
  quantumSecretIsEncrypted := false
  quantumManager := none
  quantumBlobFormat := quantumPackV2
  quantumKeyOrigin := 0
  quantumChangePrograms := fun _ => none
  quantumChangeBase := fun _ => none
  quantumSetupInProgress := false
  mnemonicStorage := []
  mnemonicIsEncrypted := false
  active_apart := nofun

/-- How a call into the database ends. A crash comes before its effect. -/
inductive DbOutcome where
  | succeeds | fails | crashes
  deriving DecidableEq

/-- What the next call outside the wallet's own code does, whichever it is.
`erase` is for the calls that remove the pending record, and `db` for all
others into the database. -/
structure Outcome where
  db : DbOutcome
  erase : DbOutcome
  keygen : KeygenOutcome
  sign : SignOutcome
  indexRead : IndexReadOutcome
  random : Uint256
  deriveIterations : Nat

/-- `signedLeaves` are the XMSS leaves of the signatures handed out. -/
structure World (Key : Type) where
  db : WalletDb
  wallet : CWallet Key
  outcomes : Nat → Outcome
  signedLeaves : List (Key × Nat)

inductive Abort where
  | crash
  | exception (what : String)
  deriving DecidableEq

abbrev WalletM (Key α : Type) := StateWp.Prog (World Key) Abort α

/-- The code outside the wallet: hashes, liboqs, encryption, private keys and
the descriptor of a new wallet. -/
structure WalletEnv (Key : Type) where
  hashes : Hashes
  lib : Liboqs Key
  crypter : Crypter
  getPubKey : CKey → Bytes
  masterExtKeyFromEntropy : Uint256 → Option CExtKey
  wordlist : Wordlist
  generateWalletDescriptor : CExtKey → Bool → WalletDescriptor

section
variable {Key : Type}

def WalletEnv.encodeMnemonic (env : WalletEnv Key) (entropy : Uint256) : Bytes :=
  Byze.encodeMnemonic env.wordlist env.hashes entropy

theorem WalletEnv.encodeMnemonic_ne_nil (env : WalletEnv Key) (entropy : Uint256) :
    env.encodeMnemonic entropy ≠ [] := by
  intro hnil
  have hdecode : decodeMnemonic env.wordlist env.hashes (env.encodeMnemonic entropy) = .ok entropy.val :=
    decodeMnemonic_encodeMnemonic entropy
  rw [hnil] at hdecode
  cases hdecode

namespace CWallet
variable (wallet : CWallet Key)

def isCrypted : Bool := !wallet.mapMasterKeys.isEmpty

def isLocked : Bool := wallet.isCrypted && wallet.vMasterKey.isEmpty

def encrypting : Bool := wallet.isCrypted && !wallet.vMasterKey.isEmpty

def findSpkm (id : Uint256) : Option DescriptorScriptPubKeyMan :=
  wallet.spkManagers.find? fun spkm => spkm.getID = id

def getScriptPubKeyMan (internal : Bool) : Option DescriptorScriptPubKeyMan :=
  (if internal then wallet.internalSpkManager else wallet.externalSpkManager).bind wallet.findSpkm

def updateSpkm (id : Uint256) (f : DescriptorScriptPubKeyMan → DescriptorScriptPubKeyMan) :
    CWallet Key :=
  { wallet with
    spkManagers := wallet.spkManagers.map fun spkm => if spkm.getID = id then f spkm else spkm }

end CWallet

def mapInsert {κ ν : Type} [DecidableEq κ] (k : κ) (v : ν) (l : List (κ × ν)) : List (κ × ν) :=
  (k, v) :: l.filter fun p => p.1 ≠ k

def World.modifyWallet (f : CWallet Key → CWallet Key) (w : World Key) : World Key :=
  { w with wallet := f w.wallet }

def World.modifyDb (f : WalletDb → WalletDb) (w : World Key) : World Key :=
  { w with db := f w.db }

def modifyWallet (f : CWallet Key → CWallet Key) : WalletM Key PUnit := modify (World.modifyWallet f)

abbrev World.tail (w : World Key) : World Key := { w with outcomes := fun n => w.outcomes (n + 1) }

def nextOutcome : WalletM Key Outcome := do
  let w ← get
  set { w with outcomes := fun n => w.outcomes (n + 1) }
  pure (w.outcomes 0)

def dbCall (ends : Outcome → DbOutcome) (f : WalletDb → WalletDb) : WalletM Key Bool := do
  let o ← nextOutcome
  match ends o with
  | .succeeds =>
    modify (World.modifyDb f)
    pure true
  | .fails => pure false
  | .crashes => throw .crash

def dbWrite (f : WalletDb → WalletDb) : WalletM Key Bool := dbCall Outcome.db f

def dbErase (f : WalletDb → WalletDb) : WalletM Key Bool := dbCall Outcome.erase f

/-- Runs `body` and takes the database back to `db` if it stops early or ends
with a result that is not to be kept. -/
def restoringDb {α : Type} (db : WalletDb) (keep : α → Bool) (body : WalletM Key α) :
    WalletM Key α := fun w =>
  match body.run w with
  | (.ok a, w') => (.ok a, if keep a then w' else { w' with db := db })
  | (.error e, w') => (.error e, { w' with db := db })

/-- Runs `body` and then `cleanup`, if `body` stops early. -/
def onAbort {α : Type} (cleanup : World Key → World Key) (body : WalletM Key α) : WalletM Key α :=
  fun w =>
    match body.run w with
    | (.ok a, w') => (.ok a, w')
    | (.error e, w') => (.error e, cleanup w')

/-- The writes of `func` take effect together, when the transaction commits. -/
def runWithinTxn (func : WalletM Key Bool) : WalletM Key Bool := do
  if ← dbWrite id then
    let w ← get
    restoringDb w.db id do
      if ← func then dbWrite id else pure false
  else pure false
end

end Byze
