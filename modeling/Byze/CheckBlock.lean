import Byze.Block
import Byze.ChainParams
import Byze.TxCheck

/-! The checks of a block: those that need no context, with the policy on its
tail of quantum signatures, and those that need the headers before it. -/

namespace Byze
open ExceptEq

inductive BlockValidationResult where
  | resultUnset | consensus | cachedInvalid | invalidHeader | mutated | missingPrev | invalidPrev
  | timeFuture | headerLowWork
  deriving DecidableEq

structure BlockReject where
  result : BlockValidationResult
  reason : String
  deriving DecidableEq

/-- What a node validates with: the external hash and verification functions,
its network, and the heights of the buried deployments. The signet solution is
checked on the header and the transactions. -/
structure NodeEnv where
  hashes : Hashes
  oqs : OqsVerify
  getHash : CBlockHeader → Uint256
  chain : ChainType
  hashGenesisBlock : Uint256
  enforceQuantumBlockSigs : Bool
  signetBlocks : Bool
  checkSignetBlockSolution : CBlockHeader → List CTransaction → Bool
  bip34Height : Nat
  bip65Height : Nat
  bip66Height : Nat
  csvHeight : Nat
  segwitHeight : Nat

variable (env : NodeEnv)

def NodeEnv.params : Params := consensusParams env.chain

def checkProofOfWork (hash : Uint256) (nBits : Nat) (params : Params) : Bool :=
  match deriveTarget nBits params.powLimit with
  | none => false
  | some bnTarget => LittleEndian.decode hash.val ≤ bnTarget

def checkBlockHeader (header : CBlockHeader) (fCheckPOW : Bool) : Except BlockReject Unit :=
  let isGenesis := env.getHash header = env.hashGenesisBlock
  if fCheckPOW ∧ ¬ isGenesis ∧
      checkProofOfWork (env.getHash header) header.nBits.toNat env.params = false then
    throw ⟨.invalidHeader, "high-hash"⟩
  else pure ()

def checkMerkleRoot (header : CBlockHeader) (vtx : List CTransaction) : Except BlockReject Unit := do
  let root := computeMerkleRoot env.hashes (vtx.map (CTransaction.getHash env.hashes))
  if header.hashMerkleRoot ≠ root.1 then throw ⟨.mutated, "bad-txnmrklroot"⟩
  if root.2 then throw ⟨.mutated, "bad-txns-duplicate"⟩

def isQuantumBlockSignaturePolicyRequired (header : CBlockHeader) (fCheckPOW : Bool) : Bool :=
  let isMainnet := env.chain = .main
  let requireQuantum := isMainnet ∨ env.enforceQuantumBlockSigs
  let isGenesis := env.getHash header = env.hashGenesisBlock
  let isTemplate := header.nNonce = 0 ∧ fCheckPOW = false
  if ¬ requireQuantum then false
  else if isGenesis then false
  else if isTemplate then false
  else true

def checkQuantumTail (block : CBlock) (fCheckPOW : Bool) : Except BlockReject Unit :=
  let data := block.quantumSignatures
  let hash := env.getHash block.toCBlockHeader
  if isQuantumBlockSignaturePolicyRequired env block.toCBlockHeader fCheckPOW then
    if data.xmssSignature.isEmpty || data.sphincsSignature.isEmpty then
      throw ⟨.consensus, "bad-quantum-sig-missing"⟩
    else if !verifyBlockQuantumSignatures env.oqs hash block then
      throw ⟨.consensus, "bad-quantum-sig"⟩
    else pure ()
  else if !data.xmssSignature.isEmpty || !data.sphincsSignature.isEmpty then
    if data.xmssSignature.isEmpty || data.sphincsSignature.isEmpty then
      throw ⟨.consensus, "bad-quantum-sig"⟩
    else if !verifyBlockQuantumSignatures env.oqs hash block then
      throw ⟨.consensus, "bad-quantum-sig"⟩
    else pure ()
  else pure ()

def checkBlockSize (block : CBlock) : Except BlockReject Unit :=
  if block.vtx = [] ∨ block.vtx.length * witnessScaleFactor > maxBlockWeight ∨
      (block.serialize false).length * witnessScaleFactor > maxBlockWeight then
    throw ⟨.consensus, "bad-blk-length"⟩
  else pure ()

def checkTransactions : List CTransaction → Except BlockReject Unit
  | [] => pure ()
  | tx :: vtx =>
    match checkTransaction tx with
    | .ok () => checkTransactions vtx
    | .error reason => throw ⟨.consensus, reason⟩

def checkBlockTransactions (vtx : List CTransaction) : Except BlockReject Unit := do
  match vtx with
  | [] => throw ⟨.consensus, "bad-cb-missing"⟩
  | coinbase :: rest =>
    if !coinbase.isCoinBase then throw ⟨.consensus, "bad-cb-missing"⟩
    if rest.any CTransaction.isCoinBase then throw ⟨.consensus, "bad-cb-multiple"⟩
  checkTransactions vtx
  if (vtx.map getLegacySigOpCount).sum * witnessScaleFactor > maxBlockSigopsCost then
    throw ⟨.consensus, "bad-blk-sigops"⟩

def checkBlock (block : CBlock) (fCheckPOW fCheckMerkleRoot : Bool) : Except BlockReject Unit := do
  checkBlockHeader env block.toCBlockHeader fCheckPOW
  if env.signetBlocks && fCheckPOW &&
      !env.checkSignetBlockSolution block.toCBlockHeader block.vtx then
    throw ⟨.consensus, "bad-signet-blksig"⟩
  if fCheckMerkleRoot then checkMerkleRoot env block.toCBlockHeader block.vtx
  checkQuantumTail env block fCheckPOW
  checkBlockSize block
  checkBlockTransactions block.vtx

def minimumWitnessCommitment : Nat := 38

def isWitnessCommitment (script : CScript) : Bool :=
  script.length ≥ minimumWitnessCommitment ∧
    script.take 6 = [0x6a, 0x24, 0xaa, 0x21, 0xa9, 0xed]

/-- The last output of the coinbase that carries a commitment. -/
def getWitnessCommitmentIndex (vtx : List CTransaction) : Option Nat :=
  match vtx with
  | [] => none
  | coinbase :: _ =>
    ((List.range coinbase.vout.length).filter fun o =>
      (coinbase.vout[o]?).any fun txout => isWitnessCommitment txout.scriptPubKey).getLast?

def blockWitnessMerkleRoot (h : Hashes) (vtx : List CTransaction) : Uint256 :=
  (computeMerkleRoot h (Uint256.zero :: vtx.tail.map (CTransaction.getWitnessHash h))).1

def checkWitnessMalleation (vtx : List CTransaction) (expectWitnessCommitment : Bool) :
    Except BlockReject Unit := do
  match if expectWitnessCommitment then getWitnessCommitmentIndex vtx else none with
  | some commitpos =>
    let stack := ((vtx.head?.bind fun tx => tx.vin.head?).map CTxIn.scriptWitness).getD []
    match stack with
    | [nonce] =>
      if nonce.length ≠ 32 then throw ⟨.mutated, "bad-witness-nonce-size"⟩
      let hashWitness := hash256 env.hashes ((blockWitnessMerkleRoot env.hashes vtx).val ++ nonce)
      let script := ((vtx.head?.bind fun tx => tx.vout[commitpos]?).map CTxOut.scriptPubKey).getD []
      if hashWitness.val ≠ (script.drop 6).take 32 then
        throw ⟨.mutated, "bad-witness-merkle-match"⟩
    | _ => throw ⟨.mutated, "bad-witness-nonce-size"⟩
  | none => if vtx.any CTransaction.hasWitness then throw ⟨.mutated, "unexpected-witness"⟩

def maxTimewarp : Int := 600
def maxFutureBlockTime : Nat := 2 * 60 * 60

def contextualCheckBlockHeader (header : CBlockHeader) (pindexPrev : CBlockIndex) (now : Nat) :
    Except BlockReject Unit := do
  let nHeight := pindexPrev.nHeight + 1
  if getNextWorkRequired pindexPrev header.nTime.toNat env.params ≠ some header.nBits.toNat then
    throw ⟨.invalidHeader, "bad-diffbits"⟩
  if header.nTime.toNat ≤ pindexPrev.getMedianTimePast then throw ⟨.invalidHeader, "time-too-old"⟩
  if env.params.enforceBIP94 ∧ nHeight % env.params.difficultyAdjustmentInterval = 0 ∧
      (header.nTime.toNat : Int) < pindexPrev.getBlockTime - maxTimewarp then
    throw ⟨.invalidHeader, "time-timewarp-attack"⟩
  if header.nTime.toNat > now + maxFutureBlockTime then throw ⟨.timeFuture, "time-too-new"⟩
  if (header.nVersion < 2 ∧ env.bip34Height ≤ nHeight) ∨
      (header.nVersion < 3 ∧ env.bip66Height ≤ nHeight) ∨
      (header.nVersion < 4 ∧ env.bip65Height ≤ nHeight) then
    throw ⟨.invalidHeader, "bad-version"⟩

def pushInt64 (n : Int) : CScript :=
  if n = -1 ∨ (1 ≤ n ∧ n ≤ 16) then [UInt8.ofNat (n + 0x50).toNat]
  else if n = 0 then [op0]
  else pushData (CScriptNum.serialize n)

def checkBlockWeight (block : CBlock) : Except BlockReject Unit :=
  if getBlockWeight block > maxBlockWeight then throw ⟨.consensus, "bad-blk-weight"⟩ else pure ()

def contextualCheckTransactions (header : CBlockHeader) (vtx : List CTransaction)
    (pindexPrev : CBlockIndex) : Except BlockReject Unit := do
  let nHeight := pindexPrev.nHeight + 1
  let nLockTimeCutoff := if env.csvHeight ≤ nHeight then pindexPrev.getMedianTimePast
    else header.nTime.toNat
  if vtx.any fun tx => !isFinalTx tx nHeight nLockTimeCutoff then
    throw ⟨.consensus, "bad-txns-nonfinal"⟩
  let scriptSig := ((vtx.head?.bind fun tx => tx.vin.head?).map CTxIn.scriptSig).getD []
  if env.bip34Height ≤ nHeight ∧ ¬ (pushInt64 nHeight).isPrefixOf scriptSig then
    throw ⟨.consensus, "bad-cb-height"⟩
  checkWitnessMalleation env vtx (env.segwitHeight ≤ nHeight)

def contextualCheckBlock (block : CBlock) (pindexPrev : CBlockIndex) : Except BlockReject Unit := do
  contextualCheckTransactions env block.toCBlockHeader block.vtx pindexPrev
  checkBlockWeight block

variable {env} {block : CBlock} {fCheckPOW fCheckMerkleRoot : Bool}

/-- The checks of `CheckBlock` on the header and the transactions alone. -/
structure ContentValid (env : NodeEnv) (header : CBlockHeader) (vtx : List CTransaction)
    (fCheckPOW fCheckMerkleRoot : Bool) : Prop where
  headerOk : checkBlockHeader env header fCheckPOW = .ok ()
  signetOk : (env.signetBlocks && fCheckPOW && !env.checkSignetBlockSolution header vtx) = false
  merkleOk : fCheckMerkleRoot = true → checkMerkleRoot env header vtx = .ok ()
  transactionsOk : checkBlockTransactions vtx = .ok ()

theorem checkBlock_ok_iff :
    checkBlock env block fCheckPOW fCheckMerkleRoot = .ok () ↔
      ContentValid env block.toCBlockHeader block.vtx fCheckPOW fCheckMerkleRoot ∧
        checkQuantumTail env block fCheckPOW = .ok () ∧ checkBlockSize block = .ok () := by
  rw [checkBlock, unit_bind_eq_ok_iff]
  simp only [throw_eq_error, error_bind, ite_error_eq_ok_iff]
  have hmerkle : ∀ rest : Except BlockReject Unit,
      (if fCheckMerkleRoot = true then do
          checkMerkleRoot env block.toCBlockHeader block.vtx
          rest
        else rest) = .ok () ↔
      (fCheckMerkleRoot = true → checkMerkleRoot env block.toCBlockHeader block.vtx = .ok ()) ∧
        rest = .ok () := by
    intro rest
    cases fCheckMerkleRoot
    · simp
    · simp [unit_bind_eq_ok_iff]
  rw [hmerkle]
  simp only [unit_bind_eq_ok_iff, Bool.not_eq_true]
  constructor
  · rintro ⟨hheader, hsignet, hroot, htail, hsize, htxs⟩
    exact ⟨⟨hheader, hsignet, hroot, htxs⟩, htail, hsize⟩
  · rintro ⟨⟨hheader, hsignet, hroot, htxs⟩, htail, hsize⟩
    exact ⟨hheader, hsignet, hroot, htail, hsize, htxs⟩

theorem contextualCheckBlock_ok_iff {pindexPrev : CBlockIndex} :
    contextualCheckBlock env block pindexPrev = .ok () ↔
      contextualCheckTransactions env block.toCBlockHeader block.vtx pindexPrev = .ok () ∧
        getBlockWeight block ≤ maxBlockWeight := by
  rw [contextualCheckBlock, unit_bind_eq_ok_iff, checkBlockWeight, throw_eq_error]
  simp

theorem checkBlockSize_ok_iff : checkBlockSize block = .ok () ↔
    block.vtx ≠ [] ∧ block.vtx.length * witnessScaleFactor ≤ maxBlockWeight ∧
      (block.serialize false).length * witnessScaleFactor ≤ maxBlockWeight := by
  rw [checkBlockSize]
  simp

theorem checkQuantumTail_required
    (hreq : isQuantumBlockSignaturePolicyRequired env block.toCBlockHeader fCheckPOW = true)
    (hok : checkQuantumTail env block fCheckPOW = .ok ()) :
    block.quantumSignatures.xmssSignature.length = xmssSignatureSize ∧
      block.quantumSignatures.sphincsSignature.length = sphincsSignatureSize ∧
      block.quantumSignatures.dualPublicKey.length = dualPubkeyBundleSize := by
  simp only [checkQuantumTail, hreq, if_true, throw_eq_error, ite_error_eq_ok_iff] at hok
  have hv : verifyBlockQuantumSignatures env.oqs (env.getHash block.toCBlockHeader) block = true := by
    simpa using hok.2.1
  obtain ⟨hx, hs, hd, -, -⟩ := (verifyBlockQuantumSignatures_iff _ _ _).mp hv
  exact ⟨hx, hs, hd⟩

theorem checkQuantumTail_optional_iff
    (hreq : isQuantumBlockSignaturePolicyRequired env block.toCBlockHeader fCheckPOW = false) :
    checkQuantumTail env block fCheckPOW = .ok () ↔
      (block.quantumSignatures.xmssSignature = [] ∧ block.quantumSignatures.sphincsSignature = []) ∨
        DualSignatureValid env.oqs block.quantumSignatures.xmssSignature
          block.quantumSignatures.sphincsSignature block.quantumSignatures.dualPublicKey
          (env.getHash block.toCBlockHeader) := by
  rw [← verifyBlockQuantumSignatures_iff]
  have hlen : verifyBlockQuantumSignatures env.oqs (env.getHash block.toCBlockHeader) block = true →
      block.quantumSignatures.xmssSignature ≠ [] ∧ block.quantumSignatures.sphincsSignature ≠ [] := by
    intro hv
    obtain ⟨hx, hs, -⟩ := (verifyBlockQuantumSignatures_iff _ _ _).mp hv
    constructor <;> intro hnil <;> simp [hnil, xmssSignatureSize, sphincsSignatureSize] at hx hs
  simp only [checkQuantumTail]
  by_cases hx : block.quantumSignatures.xmssSignature = [] <;>
    by_cases hs : block.quantumSignatures.sphincsSignature = [] <;> simp_all

end Byze
