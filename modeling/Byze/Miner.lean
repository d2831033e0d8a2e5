import Byze.BlockAcceptance
import Byze.FeeFrac

/-! The block assembler: it takes the chunks of the mempool in mining order,
keeps those that fit, and puts a coinbase with its commitment in front. -/

namespace Byze

def toFeePerVSize (feerate : FeeFrac) : FeeFrac :=
  ⟨feerate.fee, (feerate.size + witnessScaleFactor - 1) / witnessScaleFactor⟩

def minStandardTxNonwitnessSize : Nat := 65

structure CTxMemPoolEntry where
  tx : CTransaction
  nFee : Int
  modifiedFee : Int
  sigOpCost : Nat
  checked : checkTransaction tx = .ok ()
  notCoinBase : tx.isCoinBase = false
  size_ge : minStandardTxNonwitnessSize ≤ (tx.serialize false).length

def CTxMemPoolEntry.getTxWeight (entry : CTxMemPoolEntry) : Nat := getTransactionWeight entry.tx

def getSigOpsAdjustedWeight (weight sigopCost bytesPerSigop : Nat) : Nat :=
  max weight (sigopCost * bytesPerSigop)

structure Chunk where
  cluster : Nat
  entries : List CTxMemPoolEntry
  nonempty : entries ≠ []

def Chunk.feerate (bytesPerSigop : Nat) (chunk : Chunk) : FeeFrac :=
  ⟨(chunk.entries.map CTxMemPoolEntry.modifiedFee).sum,
    (chunk.entries.map fun entry =>
      getSigOpsAdjustedWeight entry.getTxWeight entry.sigOpCost bytesPerSigop).sum⟩

def Chunk.prevouts (chunk : Chunk) : List COutPoint :=
  chunk.entries.flatMap fun entry => entry.tx.vin.map CTxIn.prevout

/-- The mempool as its block builder reports it, best chunk first. -/
structure CTxMemPool where
  nBytesPerSigop : Nat
  chunks : List Chunk
  sorted : chunks.Pairwise fun a b =>
    (a.feerate nBytesPerSigop).lower (b.feerate nBytesPerSigop) = false
  noConflict : (chunks.flatMap Chunk.prevouts).Nodup

def CTxMemPool.entries (pool : CTxMemPool) : List CTxMemPoolEntry := pool.chunks.flatMap Chunk.entries

def minimumBlockReservedWeight : Nat := 2000
def defaultBlockReservedWeight : Nat := 8000

structure BlockAssemblerOptions where
  useMempool : Bool
  blockReservedWeight : Nat
  coinbaseOutputMaxAdditionalSigops : Nat
  coinbaseOutputScript : CScript
  nBlockMaxWeight : Nat
  blockMinFeeRate : CFeeRate
  testBlockValidity : Bool

def BlockAssemblerOptions.default : BlockAssemblerOptions where
  useMempool := true
  blockReservedWeight := defaultBlockReservedWeight
  coinbaseOutputMaxAdditionalSigops := 400
  coinbaseOutputScript := [op1]
  nBlockMaxWeight := maxBlockWeight
  blockMinFeeRate := ⟨⟨1, 1000⟩, by decide, by decide⟩
  testBlockValidity := true

def clamp (v lo hi : Nat) : Nat := if v < lo then lo else if hi < v then hi else v

def clampOptions (options : BlockAssemblerOptions) : BlockAssemblerOptions :=
  let blockReservedWeight :=
    clamp options.blockReservedWeight minimumBlockReservedWeight maxBlockWeight
  { options with
    blockReservedWeight
    coinbaseOutputMaxAdditionalSigops :=
      clamp options.coinbaseOutputMaxAdditionalSigops 0 maxBlockSigopsCost
    nBlockMaxWeight := clamp options.nBlockMaxWeight blockReservedWeight maxBlockWeight }

structure BlockAssembler where
  nBlockWeight : Nat
  nBlockSigOpsCost : Nat
  nBlockTx : Nat
  nFees : Int
  vtx : List CTransaction
  vTxFees : List Int
  vTxSigOpsCost : List Nat
  packageFeerates : List FeeFrac

namespace BlockAssembler

def resetBlock (options : BlockAssemblerOptions) : BlockAssembler :=
  ⟨options.blockReservedWeight, options.coinbaseOutputMaxAdditionalSigops, 0, 0, [], [], [], []⟩

variable (options : BlockAssemblerOptions) (s : BlockAssembler)

def testChunkBlockLimits (chunkFeerate : FeeFrac) (chunkSigopsCost : Nat) : Bool :=
  if options.nBlockMaxWeight ≤ s.nBlockWeight + chunkFeerate.size then false
  else if s.nBlockSigOpsCost + chunkSigopsCost ≥ maxBlockSigopsCost then false
  else true

def testChunkTransactions (nHeight : Nat) (lockTimeCutoff : Int) (txs : List CTxMemPoolEntry) : Bool :=
  txs.all fun entry => isFinalTx entry.tx nHeight lockTimeCutoff

def addToBlock (entry : CTxMemPoolEntry) : BlockAssembler :=
  { s with
    vtx := s.vtx ++ [entry.tx]
    vTxFees := s.vTxFees ++ [entry.nFee]
    vTxSigOpsCost := s.vTxSigOpsCost ++ [entry.sigOpCost]
    nBlockWeight := s.nBlockWeight + entry.getTxWeight
    nBlockTx := s.nBlockTx + 1
    nBlockSigOpsCost := s.nBlockSigOpsCost + entry.sigOpCost
    nFees := s.nFees + entry.nFee }

def addChunk (chunkFeerateVsize : FeeFrac) (txs : List CTxMemPoolEntry) : BlockAssembler :=
  let s := txs.foldl addToBlock s
  { s with packageFeerates := s.packageFeerates ++ [chunkFeerateVsize] }

def maxConsecutiveFailures : Nat := 1000
def blockFullEnoughWeightDelta : Nat := 4000

/-- The loop over the chunks that are left. A skipped chunk excludes the rest of
its cluster. -/
def addChunks (nBytesPerSigop nHeight : Nat) (lockTimeCutoff : Int) :
    List Chunk → List Nat → Nat → BlockAssembler → BlockAssembler
  | [], _, _, s => s
  | chunk :: chunks, excluded, nConsecutiveFailed, s =>
    let chunkFeerate := chunk.feerate nBytesPerSigop
    let chunkSigOps := (chunk.entries.map CTxMemPoolEntry.sigOpCost).sum
    if chunk.cluster ∈ excluded then
      addChunks nBytesPerSigop nHeight lockTimeCutoff chunks excluded nConsecutiveFailed s
    else if (toFeePerVSize chunkFeerate).lower options.blockMinFeeRate.feerate then s
    else if !testChunkBlockLimits options s chunkFeerate chunkSigOps ||
        !testChunkTransactions nHeight lockTimeCutoff chunk.entries then
      if nConsecutiveFailed + 1 > maxConsecutiveFailures ∧
          s.nBlockWeight + blockFullEnoughWeightDelta > options.nBlockMaxWeight then s
      else
        addChunks nBytesPerSigop nHeight lockTimeCutoff chunks (chunk.cluster :: excluded)
          (nConsecutiveFailed + 1) s
    else
      addChunks nBytesPerSigop nHeight lockTimeCutoff chunks excluded 0
        (s.addChunk (toFeePerVSize chunkFeerate) chunk.entries)

end BlockAssembler

def maxSequenceNonfinal : UInt32 := 0xfffffffe

def coinbaseTx (coinbaseOutputScript : CScript) (nHeight : Nat) (nValue : Int) : CTransaction :=
  { version := 2
    vin := [⟨⟨Uint256.zero, 0xffffffff⟩, pushInt64 nHeight ++ [op0], maxSequenceNonfinal, []⟩]
    vout := [⟨nValue, coinbaseOutputScript⟩]
    nLockTime := UInt32.ofNat (nHeight - 1) }

def updateUncommittedBlockStructures (segwitActive : Bool) (vtx : List CTransaction) :
    List CTransaction :=
  match vtx with
  | [] => []
  | coinbase :: txs =>
    if (getWitnessCommitmentIndex vtx).isSome && segwitActive && !coinbase.hasWitness then
      { coinbase with
        vin := coinbase.vin.modifyHead fun txin =>
          { txin with scriptWitness := [List.replicate 32 0] } } :: txs
    else vtx

def generateCoinbaseCommitment (h : Hashes) (segwitActive : Bool) (vtx : List CTransaction) :
    List CTransaction × Bytes :=
  match vtx, getWitnessCommitmentIndex vtx with
  | coinbase :: txs, none =>
    let witnessroot := hash256 h ((blockWitnessMerkleRoot h vtx).val ++ List.replicate 32 0)
    let commitment := [0x6a, 0x24, 0xaa, 0x21, 0xa9, 0xed] ++ witnessroot.val
    (updateUncommittedBlockStructures segwitActive
      ({ coinbase with vout := coinbase.vout ++ [⟨0, commitment⟩] } :: txs), commitment)
  | _, _ => (updateUncommittedBlockStructures segwitActive vtx, [])

def getMinimumTime (pindexPrev : CBlockIndex) (difficultyAdjustmentInterval : Nat) : Int :=
  let minTime : Int := pindexPrev.getMedianTimePast + 1
  if (pindexPrev.nHeight + 1) % difficultyAdjustmentInterval = 0 then
    max minTime (pindexPrev.getBlockTime - maxTimewarp)
  else minTime

def updateTime (params : Params) (pindexPrev : CBlockIndex) (now : Nat) : UInt32 :=
  let nOldTime := UInt32.ofNat now
  let nNewTime := max (getMinimumTime pindexPrev params.difficultyAdjustmentInterval) now
  if (nOldTime.toNat : Int) < nNewTime then UInt32.ofNat nNewTime.toNat else nOldTime

structure TemplateContext where
  tipHash : Uint256
  pindexPrev : CBlockIndex
  now : Nat
  nVersion : Int

/-- A final test of templates that at least keeps to the limits on size and
weight. -/
structure ValidityTest where
  test : CBlock → Except BlockReject Unit
  size_ok : ∀ block, test block = .ok () → checkBlockSize block = .ok ()
  weight_ok : ∀ block, test block = .ok () → checkBlockWeight block = .ok ()

def testBlockValidity (env : ChainEnv) (ctx : TemplateContext) (block : CBlock) :
    Except BlockReject Unit := do
  if block.hashPrevBlock ≠ ctx.tipHash then throw ⟨.resultUnset, "inconclusive-not-best-prevblk"⟩
  checkBlock env.toNodeEnv block false false
  contextualCheckBlockHeader env.toNodeEnv block.toCBlockHeader ctx.pindexPrev ctx.now
  contextualCheckBlock env.toNodeEnv block ctx.pindexPrev
  env.connectTransactions block.toCBlockHeader block.vtx

structure CBlockTemplate where
  block : CBlock
  vTxFees : List Int
  vTxSigOpsCost : List Nat
  packageFeerates : List FeeFrac
  vchCoinbaseCommitment : Bytes

inductive CreateNewBlockError where
  | assertion
  | testBlockValidityFailed (reject : BlockReject)

section
variable (env : NodeEnv) (ctx : TemplateContext) (options : BlockAssemblerOptions)
  (mempool : CTxMemPool)

def selectTransactions : BlockAssembler :=
  if options.useMempool then
    BlockAssembler.addChunks options mempool.nBytesPerSigop (ctx.pindexPrev.nHeight + 1)
      ctx.pindexPrev.getMedianTimePast mempool.chunks [] 0 (BlockAssembler.resetBlock options)
  else BlockAssembler.resetBlock options

def assembleBlock : Option CBlockTemplate := do
  let options := clampOptions options
  let nHeight := ctx.pindexPrev.nHeight + 1
  let s := selectTransactions ctx options mempool
  let coinbase := coinbaseTx options.coinbaseOutputScript nHeight
    (s.nFees + getBlockSubsidy env.chain nHeight)
  let r := generateCoinbaseCommitment env.hashes (env.segwitHeight ≤ nHeight) (coinbase :: s.vtx)
  let nTime := updateTime env.params ctx.pindexPrev ctx.now
  let nBits ← getNextWorkRequired ctx.pindexPrev nTime.toNat env.params
  some
    { block := ⟨⟨ctx.nVersion, ctx.tipHash, Uint256.zero, nTime, UInt32.ofNat nBits, 0⟩, r.1,
        QuantumSignatureData.null⟩
      vTxFees := s.vTxFees
      vTxSigOpsCost := s.vTxSigOpsCost
      packageFeerates := s.packageFeerates
      vchCoinbaseCommitment := r.2 }

def createNewBlock (validity : ValidityTest) : Except CreateNewBlockError CBlockTemplate :=
  match assembleBlock env ctx options mempool with
  | none => .error .assertion
  | some template =>
    if options.testBlockValidity then
      match validity.test template.block with
      | .error reject => .error (.testBlockValidityFailed reject)
      | .ok () => .ok template
    else .ok template
end

end Byze
