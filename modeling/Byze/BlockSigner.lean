import Byze.QuantumManager

/-! The process-wide block signer: its keys are generated on first use,
replaced in place near exhaustion, and sign the hash of every mined block. -/

namespace Byze

def xmssRotationThreshold : Nat := 950

structure BlockSigner (Key : Type) where
  manager : QuantumSafeManager Key
  ready : Bool

/-- What one call meets outside the signer: the two threads it starts, the
seeds it draws, and the outcome of every liboqs call. -/
structure AttachEnv where
  keygenThread : Bool
  keygenSeed : Uint256
  keygen : KeygenOutcome
  signThread : Bool
  indexRead : IndexReadOutcome
  rotationSeed : Uint256
  rotation : KeygenOutcome
  signing : SignOutcome

structure AttachCall where
  block : CBlock
  requireQuantum : Bool
  isGenesis : Bool
  env : AttachEnv

/-- A call's result, the block and the signer after it, and the XMSS leaf it
signed with. -/
structure Attached (Key : Type) where
  ok : Bool
  block : CBlock
  signer : BlockSigner Key
  leaf : Option (Key × Nat)

namespace BlockSigner
variable {Key : Type} (h : Hashes) (lib : Liboqs Key) (getHash : CBlockHeader → Uint256)
  (g : BlockSigner Key)

def initial : BlockSigner Key := ⟨QuantumSafeManager.empty, false⟩

def ensureBlockSignerKeys (env : AttachEnv) : Bool × BlockSigner Key :=
  if g.ready then (true, g)
  else if !env.keygenThread then (false, g)
  else
    let r := g.manager.generateDualKeysFromEntropyIkm h lib env.keygenSeed.val env.keygen
    if !r.1 then (false, { g with manager := r.2 }) else (true, ⟨r.2, true⟩)

def rotateKeys (env : AttachEnv) : Bool × BlockSigner Key :=
  match g.manager.getXmssIndex lib env.indexRead with
  | none => (true, g)
  | some xmssIndex =>
    if xmssIndex ≥ xmssRotationThreshold then
      let r := g.manager.generateDualKeysFromEntropyIkm h lib env.rotationSeed.val env.rotation
      (r.1, { g with manager := r.2 })
    else (true, g)

def signHash (block : CBlock) (o : SignOutcome) : Attached Key :=
  let blockHash := getHash block.toCBlockHeader
  let xmss := g.manager.sign lib blockHash .xmss o
  if xmss.1.length ≠ xmssSignatureSize then
    ⟨false, block, { g with manager := xmss.2.1 }, xmss.2.2⟩
  else
    let sphincs := xmss.2.1.sign lib blockHash .sphincsPlus o
    if sphincs.1.length ≠ sphincsSignatureSize then
      ⟨false, block, { g with manager := sphincs.2.1 }, xmss.2.2⟩
    else
      ⟨true, { block with quantumSignatures :=
          ⟨xmss.1, sphincs.1, sphincs.2.1.getDualPublicKeyBundle⟩ },
        { g with manager := sphincs.2.1 }, xmss.2.2⟩

def signBlockWithReadyKeys (block : CBlock) (env : AttachEnv) : Attached Key :=
  if !env.signThread then ⟨false, block, g, none⟩
  else if !g.ready then ⟨false, block, g, none⟩
  else
    let r := g.rotateKeys h lib env
    if !r.1 then ⟨false, block, r.2, none⟩
    else r.2.signHash lib getHash block env.signing

def attachQuantumBlockSignatures (call : AttachCall) : Attached Key :=
  let block := { call.block with quantumSignatures := QuantumSignatureData.null }
  if !call.requireQuantum || call.isGenesis then ⟨true, block, g, none⟩
  else
    let r := g.ensureBlockSignerKeys h lib call.env
    if !r.1 then ⟨false, block, r.2, none⟩
    else r.2.signBlockWithReadyKeys h lib getHash block call.env

def step (st : BlockSigner Key × List (Key × Nat)) (call : AttachCall) : BlockSigner Key × List (Key × Nat) :=
  let r := st.1.attachQuantumBlockSignatures h lib getHash call
  (r.signer, r.leaf.toList ++ st.2)

def run (calls : List AttachCall) : BlockSigner Key × List (Key × Nat) :=
  calls.foldl (step h lib getHash) (initial, [])

/-- No signing call of `call` fails, and if it rotates the keys, it does not get the XMSS
key without the SPHINCS+ key. -/
def Sound (call : AttachCall) : Prop :=
  let signer := (g.ensureBlockSignerKeys h lib call.env).2
  call.requireQuantum = true → call.isGenesis = false → call.env.signThread = true → signer.ready = true →
    call.env.signing.xmss = .succeeds ∧ call.env.signing.sphincs = true ∧
      ∀ xmssIndex, signer.manager.getXmssIndex lib call.env.indexRead = some xmssIndex →
        xmssRotationThreshold ≤ xmssIndex → call.env.rotation.xmss = .succeeds → call.env.rotation.sphincs = .succeeds

end BlockSigner

def AttachCall.keys {Key : Type} (h : Hashes) (lib : Liboqs Key) (call : AttachCall) : List Key :=
  [xmssKeyOfIkm h lib call.env.keygenSeed.val, xmssKeyOfIkm h lib call.env.rotationSeed.val]

end Byze
