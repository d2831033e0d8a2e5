import Byze.BlockAcceptance

/-! Headers presync: a peer's headers are first received for their work alone,
with a bit remembered every so often, and then received again and checked
against the bits before they are accepted. -/

namespace Byze

structure HeadersSyncParams where
  commitmentPeriod : Nat
  redownloadBufferSize : Nat

def headersSyncParams : ChainType → HeadersSyncParams
  | .main | .stagenet => ⟨632, 15009⟩
  | .testnet => ⟨628, 13460⟩
  | .testnet4 | .regtest _ => ⟨275, 7017⟩
  | .signet => ⟨390, 9584⟩

structure CompressedHeader where
  nVersion : Int
  hashMerkleRoot : Uint256
  nTime : UInt32
  nBits : UInt32
  nNonce : UInt32

def CompressedHeader.ofHeader (header : CBlockHeader) : CompressedHeader :=
  ⟨header.nVersion, header.hashMerkleRoot, header.nTime, header.nBits, header.nNonce⟩

def CompressedHeader.getFullHeader (c : CompressedHeader) (hashPrevBlock : Uint256) : CBlockHeader :=
  ⟨c.nVersion, hashPrevBlock, c.hashMerkleRoot, c.nTime, c.nBits, c.nNonce⟩

structure ChainStart where
  header : CBlockHeader
  nHeight : Nat
  nChainWork : Nat

/-- What a sync is made with, among it the salted hash of its bits and the
secret offset of the heights they are for. -/
structure SyncEnv where
  getHash : CBlockHeader → Uint256
  hasher : Uint256 → Nat
  chain : ChainType
  chainStart : ChainStart
  minimumRequiredWork : Nat
  commitOffset : Nat
  medianTimePast : Int
  now : Int

inductive SyncPhase where
  | presync | redownload | final
  deriving DecidableEq

structure HeadersSyncState where
  currentChainWork : Nat
  headerCommitments : List Bool
  lastHeaderReceived : CBlockHeader
  currentHeight : Nat
  redownloadedHeaders : List CompressedHeader
  redownloadBufferLastHeight : Nat
  redownloadBufferLastHash : Uint256
  redownloadBufferFirstPrevHash : Uint256
  redownloadChainWork : Nat
  processAllRemainingHeaders : Bool
  downloadState : SyncPhase

structure ProcessingResult where
  powValidatedHeaders : List CBlockHeader
  success : Bool
  requestMore : Bool

def addWork (a b : Nat) : Nat := (a + b) % 2 ^ 256

/-- Six blocks a second, from the last allowed time of a block until now. -/
def SyncEnv.maxCommitments (env : SyncEnv) : Nat :=
  (6 * (env.now - env.medianTimePast + maxFutureBlockTime) % 2 ^ 64).toNat /
    (headersSyncParams env.chain).commitmentPeriod

namespace HeadersSyncState
variable (env : SyncEnv)

def initial : HeadersSyncState where
  currentChainWork := env.chainStart.nChainWork
  headerCommitments := []
  lastHeaderReceived := env.chainStart.header
  currentHeight := env.chainStart.nHeight
  redownloadedHeaders := []
  redownloadBufferLastHeight := 0
  redownloadBufferLastHash := Uint256.zero
  redownloadBufferFirstPrevHash := Uint256.zero
  redownloadChainWork := 0
  processAllRemainingHeaders := false
  downloadState := .presync

def finalize (st : HeadersSyncState) : HeadersSyncState :=
  { st with
    headerCommitments := []
    lastHeaderReceived := CBlockHeader.null
    redownloadedHeaders := []
    redownloadBufferLastHash := Uint256.zero
    redownloadBufferFirstPrevHash := Uint256.zero
    processAllRemainingHeaders := false
    currentHeight := 0
    downloadState := .final }

def commits (height : Nat) : Bool :=
  height % (headersSyncParams env.chain).commitmentPeriod = env.commitOffset

def commitment (header : CBlockHeader) : Bool := env.hasher (env.getHash header) % 2 = 1

def validateAndProcessSingleHeader (st : HeadersSyncState) (current : CBlockHeader) :
    Bool × HeadersSyncState :=
  let nextHeight := st.currentHeight + 1
  if !permittedDifficultyTransition (consensusParams env.chain) nextHeight
      st.lastHeaderReceived.nBits.toNat current.nBits.toNat then (false, st)
  else
    let bits := if commits env nextHeight then st.headerCommitments ++ [commitment env current]
      else st.headerCommitments
    if commits env nextHeight && bits.length > env.maxCommitments then
      (false, { st with headerCommitments := bits })
    else
      (true, { st with
        headerCommitments := bits
        currentChainWork := addWork st.currentChainWork (getBlockProof current.nBits.toNat)
        lastHeaderReceived := current
        currentHeight := nextHeight })

def processEach (f : HeadersSyncState → CBlockHeader → Bool × HeadersSyncState) :
    HeadersSyncState → List CBlockHeader → Bool × HeadersSyncState
  | st, [] => (true, st)
  | st, header :: headers =>
    if (f st header).1 then processEach f (f st header).2 headers else (false, (f st header).2)

def startRedownload (st : HeadersSyncState) : HeadersSyncState :=
  { st with
    redownloadedHeaders := []
    redownloadBufferLastHeight := env.chainStart.nHeight
    redownloadBufferFirstPrevHash := env.getHash env.chainStart.header
    redownloadBufferLastHash := env.getHash env.chainStart.header
    redownloadChainWork := env.chainStart.nChainWork
    downloadState := .redownload }

def validateAndStoreHeadersCommitments (st : HeadersSyncState) (headers : List CBlockHeader) :
    Bool × HeadersSyncState :=
  match headers with
  | [] => (true, st)
  | first :: _ =>
    if first.hashPrevBlock ≠ env.getHash st.lastHeaderReceived then (false, st)
    else
      let r := processEach (validateAndProcessSingleHeader env) st headers
      if !r.1 then (false, r.2)
      else if r.2.currentChainWork ≥ env.minimumRequiredWork then (true, startRedownload env r.2)
      else (true, r.2)

def previousNBits (st : HeadersSyncState) : UInt32 :=
  match st.redownloadedHeaders.getLast? with
  | some last => last.nBits
  | none => env.chainStart.header.nBits

def validateAndStoreRedownloadedHeader (st : HeadersSyncState) (header : CBlockHeader) :
    Bool × HeadersSyncState :=
  let nextHeight := st.redownloadBufferLastHeight + 1
  if header.hashPrevBlock ≠ st.redownloadBufferLastHash then (false, st)
  else if !permittedDifficultyTransition (consensusParams env.chain) nextHeight
      (previousNBits env st).toNat header.nBits.toNat then (false, st)
  else
    let work := addWork st.redownloadChainWork (getBlockProof header.nBits.toNat)
    let all := st.processAllRemainingHeaders || work ≥ env.minimumRequiredWork
    let st := { st with redownloadChainWork := work, processAllRemainingHeaders := all }
    let stored := { st with
      redownloadedHeaders := st.redownloadedHeaders ++ [CompressedHeader.ofHeader header]
      redownloadBufferLastHeight := nextHeight
      redownloadBufferLastHash := env.getHash header }
    if !all && commits env nextHeight then
      match st.headerCommitments with
      | [] => (false, st)
      | expected :: rest =>
        if commitment env header ≠ expected then (false, { st with headerCommitments := rest })
        else (true, { stored with headerCommitments := rest })
    else (true, stored)

/-- The headers taken from the front of the buffer, what stays in it, and the
hash of the header before that. -/
def popHeaders (all : Bool) : List CompressedHeader → Uint256 →
    List CBlockHeader × List CompressedHeader × Uint256
  | [], prev => ([], [], prev)
  | c :: rest, prev =>
    if (c :: rest).length > (headersSyncParams env.chain).redownloadBufferSize || all then
      let full := c.getFullHeader prev
      let r := popHeaders all rest (env.getHash full)
      (full :: r.1, r.2)
    else ([], c :: rest, prev)

def popHeadersReadyForAcceptance (st : HeadersSyncState) : List CBlockHeader × HeadersSyncState :=
  let r := popHeaders env st.processAllRemainingHeaders st.redownloadedHeaders
    st.redownloadBufferFirstPrevHash
  (r.1, { st with redownloadedHeaders := r.2.1, redownloadBufferFirstPrevHash := r.2.2 })

def processPresync (st : HeadersSyncState) (headers : List CBlockHeader) (fullHeadersMessage : Bool) :
    ProcessingResult × HeadersSyncState :=
  let r := validateAndStoreHeadersCommitments env st headers
  (⟨[], r.1, r.1 && (fullHeadersMessage || r.2.downloadState = .redownload)⟩, r.2)

def processRedownload (st : HeadersSyncState) (headers : List CBlockHeader)
    (fullHeadersMessage : Bool) : ProcessingResult × HeadersSyncState :=
  let r := processEach (validateAndStoreRedownloadedHeader env) st headers
  if r.1 then
    let p := popHeadersReadyForAcceptance env r.2
    (⟨p.1, true, !(p.2.redownloadedHeaders.isEmpty && p.2.processAllRemainingHeaders) &&
      fullHeadersMessage⟩, p.2)
  else (⟨[], false, false⟩, r.2)

def processNextHeaders (st : HeadersSyncState) (receivedHeaders : List CBlockHeader)
    (fullHeadersMessage : Bool) : ProcessingResult × HeadersSyncState :=
  if receivedHeaders.isEmpty then (⟨[], false, false⟩, st)
  else
    match st.downloadState with
    | .final => (⟨[], false, false⟩, st)
    | .presync => finish (processPresync env st receivedHeaders fullHeadersMessage)
    | .redownload => finish (processRedownload env st receivedHeaders fullHeadersMessage)
where
  finish (r : ProcessingResult × HeadersSyncState) : ProcessingResult × HeadersSyncState :=
    if !(r.1.success && r.1.requestMore) then (r.1, r.2.finalize) else r

end HeadersSyncState

structure HeadersMessage where
  headers : List CBlockHeader
  full : Bool

/-- What a sync has received in each of its phases, and what it has returned. -/
structure SyncLog where
  state : HeadersSyncState
  presync : List CBlockHeader
  redownload : List CBlockHeader
  returned : List CBlockHeader

namespace SyncLog
variable (env : SyncEnv)

def initial : SyncLog := ⟨HeadersSyncState.initial env, [], [], []⟩

def receive (log : SyncLog) (message : HeadersMessage) : SyncLog :=
  let r := HeadersSyncState.processNextHeaders env log.state message.headers message.full
  { state := r.2
    presync := if log.state.downloadState = .presync then log.presync ++ message.headers
      else log.presync
    redownload := if log.state.downloadState = .redownload then log.redownload ++ message.headers
      else log.redownload
    returned := log.returned ++ r.1.powValidatedHeaders }

def run (messages : List HeadersMessage) : SyncLog := messages.foldl (receive env) (initial env)

end SyncLog

end Byze
