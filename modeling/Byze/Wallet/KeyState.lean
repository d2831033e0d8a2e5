import Byze.Wallet.Run

/-! The part of a wallet that decides about its quantum keys, and the steps that
the wallet's operations take on it. -/

namespace Byze

def QuantumKeyRef.dbKeys (ref : QuantumKeyRef) : List QuantumDbKey :=
  if ref.change then [.changeIndexState ref.index]
  else if ref.index = 0 then [.indexState 0, .state]
  else [.indexState ref.index]

def QuantumDbKey.ref : QuantumDbKey → QuantumKeyRef
  | .state => ⟨false, 0⟩
  | .indexState i => ⟨false, i⟩
  | .changeIndexState i => ⟨true, i⟩

theorem QuantumKeyRef.mem_dbKeys {ref : QuantumKeyRef} {key : QuantumDbKey} :
    key ∈ ref.dbKeys ↔ key.ref = ref := by
  obtain ⟨change, index⟩ := ref
  cases change with
  | true => cases key <;> simp [dbKeys, QuantumDbKey.ref]
  | false =>
    by_cases h0 : index = 0
    · subst h0
      cases key <;> simp [dbKeys, QuantumDbKey.ref]
    · cases key <;> simp [dbKeys, QuantumDbKey.ref, h0, Ne.symm h0]

structure KeyState (Key : Type) where
  record : QuantumDbKey → Option Bytes
  loaded : Bool
  crypted : Bool
  masterKey : Bytes
  manager : Option (QuantumSafeManager Key)
  program : Option Uint256
  origin : UInt8
  format : UInt8
  leaves : List (Key × Nat)

def World.keyState {Key : Type} (w : World Key) : KeyState Key where
  record := w.db.quantum
  loaded := w.wallet.loaded
  crypted := w.wallet.isCrypted
  masterKey := w.wallet.vMasterKey
  manager := w.wallet.quantumManager
  program := w.wallet.quantumProgramBytes
  origin := w.wallet.quantumKeyOrigin
  format := w.wallet.quantumBlobFormat
  leaves := w.signedLeaves

section
variable {Key : Type} (env : WalletEnv Key)

def derivedKey (root : CExtKey) (ref : QuantumKeyRef) (o : KeygenOutcome) : Option (QuantumSafeManager Key) :=
  let r := QuantumSafeManager.empty.generateDualKeysFromEntropyIkm env.hashes env.lib (quantumIkm root ref) o
  if r.1 then some r.2 else none

namespace KeyState
variable (c : KeyState Key)

def encrypting : Bool := c.crypted && !c.masterKey.isEmpty

def read (key : QuantumDbKey) : Option Bytes :=
  (c.record key).bind fun packed => if packed = [] then none else some packed

def write (keys : List QuantumDbKey) (packed : Bytes) : KeyState Key :=
  { c with record := fun key => if key ∈ keys then some packed else c.record key }

def pack (origin : UInt8) (mgr : QuantumSafeManager Key) : Option Bytes :=
  mgr.serializeDualKeys.bind fun plain =>
    (if c.encrypting then env.crypter.encryptSecret c.masterKey plain (quantumWalletIv env)
      else some plain).bind fun payload =>
        (programFromManager env mgr).map fun program =>
          packQuantumDbRecordV2 c.encrypting origin program payload

/-- The key that is loaded for signing or for being stored: from its first
record, or from a root where it has none. -/
inductive Loads (ref : QuantumKeyRef) (mgr : QuantumSafeManager Key) : Prop
  | record (packed : Bytes) (hread : ref.dbKeys.findSome? c.read = some packed)
      (hopen : unpackQuantumBlobToManager env c.masterKey packed = some mgr)
  | derived (root : CExtKey) (o : KeygenOutcome) (hnone : ref.dbKeys.findSome? c.read = none)
      (hder : derivedKey env root ref o = some mgr)

inductive Source (ref : QuantumKeyRef) (mgr : QuantumSafeManager Key) : Prop
  | loads (h : c.Loads env ref mgr)
  | memory (program : Uint256) (href : ref = ⟨false, 0⟩) (hmgr : c.manager = some mgr)
      (hprogram : c.program = some program) (hown : programFromManager env mgr = some program)

def refresh (taken : Bool) (program : Uint256) (mgr : QuantumSafeManager Key) : KeyState Key :=
  if taken then
    { c with
      program := some program, origin := quantumOriginHdMaster, format := quantumPackV2,
      manager := cloneQuantumManager mgr }
  else c

def keepSigned (ref : QuantumKeyRef) (mgr : QuantumSafeManager Key) : KeyState Key :=
  if ref = ⟨false, 0⟩ then
    { c with program := programFromManager env mgr, manager := cloneQuantumManager mgr }
  else c

def forgotten (loaded crypted : Bool) : KeyState Key :=
  { c with
    loaded := loaded, crypted := crypted, masterKey := [], manager := none, program := none,
    origin := 0, format := quantumPackV2 }

def applied (r : QuantumRecord) (manager : Option (QuantumSafeManager Key)) : KeyState Key :=
  { c with program := some r.program, origin := r.origin, format := r.format, manager := manager }

end KeyState

open KeyState in
/-- A step that signs nothing, in a wallet with this master key. A step that
stores a key may be cut short by a failure or undone, and then only writes some
of its records. -/
inductive KeyStep (master : Uint256) : KeyState Key → KeyState Key → Prop
  | keys (c : KeyState Key) (crypted : Bool) (masterKey : Bytes)
      (manager : Option (QuantumSafeManager Key)) (hmanager : manager = c.manager ∨ manager = none)
      (hmaster : masterKey = c.masterKey ∨ masterKey = [] ∨ masterKey = master.val) :
      KeyStep master c { c with crypted := crypted, masterKey := masterKey, manager := manager }
  | clear (c : KeyState Key) (hread : c.read .state = none) :
      KeyStep master c { c with program := none, manager := none }
  | apply (c : KeyState Key) (packed : Bytes) (r : QuantumRecord)
      (manager : Option (QuantumSafeManager Key)) (hread : c.read .state = some packed)
      (hr : unpackQuantumDbRecord packed = some r)
      (hopen : ∀ mgr, manager = some mgr → openQuantumPayload env c.masterKey r = some mgr) :
      KeyStep master c (c.applied r manager)
  | encrypt (c : KeyState Key) (mgr : QuantumSafeManager Key) (program : Uint256)
      (plain cipher packed : Bytes) (hmgr : c.manager = some mgr)
      (hprogram : c.program = some program) (hplain : mgr.serializeDualKeys = some plain)
      (hcipher : env.crypter.encryptSecret master.val plain (quantumWalletIv env) = some cipher)
      (hpacked : packed = if c.format ≥ quantumPackV2 then
          packQuantumDbRecordV2 true c.origin program cipher
        else packQuantumDbRecordV1 true program cipher) :
      KeyStep master c (c.write [.state] packed)
  | close (c : KeyState Key) : KeyStep master c (c.forgotten false false)
  | load (c : KeyState Key) (crypted : Bool) (hread : c.read .state = none) :
      KeyStep master c (c.forgotten true crypted)
  | loadState (c : KeyState Key) (crypted : Bool) (packed : Bytes) (r : QuantumRecord)
      (manager : Option (QuantumSafeManager Key)) (hread : c.read .state = some packed)
      (hr : unpackQuantumDbRecord packed = some r)
      (hopen : ∀ mgr, manager = some mgr → openQuantumPayload env [] r = some mgr) :
      KeyStep master c ((c.forgotten true crypted).applied r manager)
  | store (c : KeyState Key) (ref : QuantumKeyRef) (mgr : QuantumSafeManager Key) (packed : Bytes)
      (keys : List QuantumDbKey) (program : Option Uint256) (hloaded : c.loaded = true)
      (hloads : c.Loads env ref mgr) (hpack : c.pack env c.origin mgr = some packed)
      (hkeys : keys <+: ref.dbKeys)
      (hprogram : program = c.program ∨ ref = ⟨false, 0⟩ ∧ program = programFromManager env mgr) :
      KeyStep master c { c.write keys packed with program := program }
  | fromRoot (c : KeyState Key) (root : CExtKey) (o : KeygenOutcome) (mgr : QuantumSafeManager Key)
      (program : Uint256) (packed : Bytes) (keys : List QuantumDbKey) (taken : Bool)
      (hwhy : c.read .state = none ∧ c.program = none ∨
        c.origin ≠ quantumOriginHdMaster ∧ c.program = some program)
      (hder : derivedKey env root ⟨false, 0⟩ o = some mgr)
      (hown : programFromManager env mgr = some program)
      (hpack : c.pack env quantumOriginHdMaster mgr = some packed)
      (hkeys : keys <+: [.state, .indexState 0]) :
      KeyStep master c ((c.write keys packed).refresh taken program mgr)

open KeyState in
/-- A step of signing for a program, with the key that signs. The key in memory
may move on although nothing is stored or handed out. -/
inductive SignStep (program : Uint256) : KeyState Key → KeyState Key → Prop
  | advance (c : KeyState Key) (mgr : QuantumSafeManager Key) (sighash : Uint256) (o : SignOutcome)
      (hmgr : c.manager = some mgr) (hown : programFromManager env mgr = some program) :
      SignStep program c { c with manager := some (mgr.sign env.lib sighash .xmss o).2.1 }
  | unsaved (c : KeyState Key) (ref : QuantumKeyRef) (mgr : QuantumSafeManager Key)
      (sighash : Uint256) (o : SignOutcome) (hloaded : c.loaded = true)
      (hsource : c.Source env ref mgr) (hown : programFromManager env mgr = some program) :
      SignStep program c (c.keepSigned env ref (mgr.sign env.lib sighash .xmss o).2.1)
  | signed (c : KeyState Key) (ref : QuantumKeyRef) (mgr : QuantumSafeManager Key)
      (sighash : Uint256) (o : SignOutcome) (packed : Bytes) (hloaded : c.loaded = true)
      (hsource : c.Source env ref mgr) (hown : programFromManager env mgr = some program)
      (hpack : c.pack env c.origin (mgr.sign env.lib sighash .xmss o).2.1 = some packed) :
      SignStep program c ({ c.write ref.dbKeys packed with
          leaves := (mgr.sign env.lib sighash .xmss o).2.2.toList ++ c.leaves }.keepSigned env ref
            (mgr.sign env.lib sighash .xmss o).2.1)

/-- Any number of steps, in which only programs in `signs` are signed for. -/
def KeySteps (master : Uint256) (signs : Uint256 → Prop) : KeyState Key → KeyState Key → Prop :=
  Relation.ReflTransGen fun c c' =>
    KeyStep env master c c' ∨ ∃ program, signs program ∧ SignStep env program c c'
end

end Byze
