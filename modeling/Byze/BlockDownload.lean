import Byze.BlockEncodings

/-! The table of blocks in flight, and what each message about a block does to
it, makes the node send and gives to validation. -/

namespace Byze

abbrev NodeId := Nat

structure QueuedBlock where
  hash : Uint256
  nodeId : NodeId
  partialBlock : Option PartiallyDownloadedBlock
  deriving DecidableEq

abbrev BlockDownloadMap := List QueuedBlock

/-- What the node knows when a message comes: the answers of its chain state
for the block of the message, its transactions, and its peers. -/
structure ChainView where
  loadingBlocks : Bool
  initialBlockDownload : Bool
  prevKnown : Bool
  enoughWork : Bool
  headerValid : Bool
  haveData : Bool
  moreWorkThanTip : Bool
  hadTransactions : Bool
  canDirectFetch : Bool
  nearTip : Bool
  segwitActive : Bool
  newBlock : Bool
  validTransactions : Bool
  blocksToFetch : List Uint256
  fetchCompact : Bool
  unevenBuckets : List Nat → Bool
  pool : List (Uint256 × CTransaction)
  extraTxn : List (Uint256 × CTransaction)
  isInbound : NodeId → Bool
  highBandwidthTo : NodeId → Bool

inductive NetEffect where
  | getHeaders (peer : NodeId)
  | getData (peer : NodeId) (hash : Uint256)
  | getDataCompact (peer : NodeId) (hash : Uint256)
  | getBlockTxn (peer : NodeId) (hash : Uint256) (indexes : List Nat)
  | misbehaving (peer : NodeId) (message : String)
  | reconstructed (peer : NodeId) (block : CBlock)
  | processNewBlock (block : CBlock) (forceProcessing minPowChecked : Bool)
  deriving DecidableEq

def maxCmpctBlocksInFlightPerBlock : Nat := 3
def maxBlocksInTransitPerPeer : Nat := 16

namespace BlockDownloadMap

def equalRange (map : BlockDownloadMap) (hash : Uint256) : List QueuedBlock :=
  map.filter fun entry => entry.hash = hash

def isBlockRequested (map : BlockDownloadMap) (hash : Uint256) : Bool :=
  !(map.equalRange hash).isEmpty

def isBlockRequestedFromOutbound (map : BlockDownloadMap) (isInbound : NodeId → Bool)
    (hash : Uint256) : Bool :=
  (map.equalRange hash).any fun entry => !isInbound entry.nodeId

def removeBlockRequest (map : BlockDownloadMap) (hash : Uint256) (fromPeer : Option NodeId) :
    BlockDownloadMap :=
  map.filter fun entry => !(entry.hash = hash && fromPeer.all (entry.nodeId = ·))

def blocksInFlight (map : BlockDownloadMap) (peer : NodeId) : Nat :=
  (map.filter fun entry => entry.nodeId = peer).length

def requestedFrom (map : BlockDownloadMap) (hash : Uint256) (peer : NodeId) : Bool :=
  (map.equalRange hash).any fun entry => entry.nodeId = peer

def firstInFlight (map : BlockDownloadMap) (hash : Uint256) (peer : NodeId) : Bool :=
  (map.equalRange hash).head?.all fun entry => entry.nodeId = peer

def blockRequested (map : BlockDownloadMap) (peer : NodeId) (hash : Uint256)
    (partialBlock : Option PartiallyDownloadedBlock) : BlockDownloadMap :=
  if map.requestedFrom hash peer then map
  else map.removeBlockRequest hash (some peer) ++ [⟨hash, peer, partialBlock⟩]

def partialBlockOf (map : BlockDownloadMap) (hash : Uint256) (peer : NodeId) :
    Option PartiallyDownloadedBlock :=
  (map.equalRange hash).findSome? fun entry =>
    if entry.nodeId = peer then entry.partialBlock else none

def setPartialBlock (map : BlockDownloadMap) (hash : Uint256) (peer : NodeId)
    (partialBlock : PartiallyDownloadedBlock) : BlockDownloadMap :=
  map.map fun entry =>
    if entry.hash = hash ∧ entry.nodeId = peer then { entry with partialBlock := some partialBlock }
    else entry

end BlockDownloadMap

section
variable (env : NodeEnv) (view : ChainView)

def missesQuantumTail (block : CBlock) : Bool :=
  isQuantumBlockSignaturePolicyRequired env block.toCBlockHeader true &&
    (block.quantumSignatures.xmssSignature.isEmpty || block.quantumSignatures.sphincsSignature.isEmpty)

def processBlock (map : BlockDownloadMap) (block : CBlock) (forceProcessing minPowChecked : Bool) :
    BlockDownloadMap × List NetEffect :=
  (if view.newBlock then map.removeBlockRequest (env.getHash block.toCBlockHeader) none else map,
    [.processNewBlock block forceProcessing minPowChecked])

def processCompactBlockTxns (map : BlockDownloadMap) (peer : NodeId) (blockhash : Uint256)
    (txn : List CTransaction) : BlockDownloadMap × List NetEffect :=
  let removed := map.removeBlockRequest blockhash (some peer)
  match map.partialBlockOf blockhash peer with
  | none => (map, [])
  | some partialBlock =>
    if partialBlock.header.isNull then
      (removed, [.misbehaving peer "previous compact block reconstruction attempt failed"])
    else
      let kept := map.setPartialBlock blockhash peer .empty
      match partialBlock.fillBlock env txn view.segwitActive with
      | .invalid =>
        (removed, [.misbehaving peer "invalid compact block/non-matching block transactions"])
      | .failed =>
        if map.firstInFlight blockhash peer then (kept, [.getData peer blockhash]) else (removed, [])
      | .ok block =>
        if missesQuantumTail env block then
          if map.firstInFlight blockhash peer then
            (kept, [.reconstructed peer block, .getData peer blockhash])
          else (removed, [.reconstructed peer block])
        else
          let r := processBlock env view removed block true true
          (r.1, .reconstructed peer block :: r.2)

/-- The part of a `cmpctblock` message that puts the block in flight. -/
def requestCompactBlock (map : BlockDownloadMap) (peer : NodeId) (c : CBlockHeaderAndShortTxIDs) :
    BlockDownloadMap × List NetEffect :=
  let blockhash := env.getHash c.header
  if (map.partialBlockOf blockhash peer).isSome then (map, [])
  else
    let r := PartiallyDownloadedBlock.empty.initData env view.unevenBuckets view.pool view.extraTxn c
    let requested := (map.blockRequested peer blockhash (some .empty)).setPartialBlock blockhash peer r.2
    let removed := requested.removeBlockRequest blockhash (some peer)
    match r.1 with
    | .invalid => (removed, [.misbehaving peer "invalid compact block"])
    | .failed =>
      if map.firstInFlight blockhash peer then (requested, [.getData peer blockhash])
      else (removed, [])
    | .ok =>
      let indexes := (List.range c.blockTxCount).filter fun i => !r.2.isTxAvailable i
      if indexes = [] then processCompactBlockTxns env view requested peer blockhash []
      else if map.firstInFlight blockhash peer then
        (requested, [.getBlockTxn peer blockhash indexes])
      else if view.highBandwidthTo peer && (!view.isInbound peer ||
          requested.isBlockRequestedFromOutbound view.isInbound blockhash ||
          (map.equalRange blockhash).length < maxCmpctBlocksInFlightPerBlock - 1) then
        (requested, [.getBlockTxn peer blockhash indexes])
      else (removed, [])

/-- The part of a `cmpctblock` message for a peer that has too many blocks to
send, or a block that enough peers send. -/
def reconstructOptimistically (map : BlockDownloadMap) (peer : NodeId)
    (c : CBlockHeaderAndShortTxIDs) : BlockDownloadMap × List NetEffect :=
  let blockhash := env.getHash c.header
  let r := PartiallyDownloadedBlock.empty.initData env view.unevenBuckets view.pool view.extraTxn c
  if r.1 ≠ .ok then (map, [])
  else
    match r.2.fillBlock env [] view.segwitActive with
    | .invalid | .failed => (map, [])
    | .ok block =>
      if missesQuantumTail env block then
        (map, .reconstructed peer block ::
          if map.firstInFlight blockhash peer then [.getData peer blockhash] else [])
      else
        let r := processBlock env view map block true true
        (if view.validTransactions then
            r.1.removeBlockRequest (env.getHash block.toCBlockHeader) none
          else r.1, .reconstructed peer block :: r.2)

def fetchBlocks (peer : NodeId) : BlockDownloadMap → List Uint256 → BlockDownloadMap × List Uint256
  | map, [] => (map, [])
  | map, hash :: hashes =>
    if map.blocksInFlight peer ≥ maxBlocksInTransitPerPeer then (map, [])
    else
      let r := fetchBlocks peer (map.blockRequested peer hash none) hashes
      (r.1, hash :: r.2)

def headersDirectFetchBlocks (map : BlockDownloadMap) (peer : NodeId) : BlockDownloadMap × List NetEffect :=
  let vToFetch := view.blocksToFetch.filter fun hash => !map.isBlockRequested hash
  let r := fetchBlocks peer map vToFetch
  if r.2.length = 1 && r.1.length = 1 && view.fetchCompact then
    (r.1, r.2.map (NetEffect.getDataCompact peer))
  else (r.1, r.2.map (NetEffect.getData peer))

def processCmpctBlock (map : BlockDownloadMap) (peer : NodeId) (c : CBlockHeaderAndShortTxIDs) :
    BlockDownloadMap × List NetEffect :=
  let blockhash := env.getHash c.header
  let alreadyInFlight := (map.equalRange blockhash).length
  let requestedFromThisPeer := map.requestedFrom blockhash peer
  if view.loadingBlocks then (map, [])
  else if !view.prevKnown then
    (map, if view.initialBlockDownload then [] else [.getHeaders peer])
  else if !view.enoughWork then (map, [])
  else if !view.headerValid then (map, [.misbehaving peer "invalid header via cmpctblock"])
  else if view.haveData then (map, [])
  else if !view.moreWorkThanTip || view.hadTransactions then
    (map, if requestedFromThisPeer then [.getData peer blockhash] else [])
  else if alreadyInFlight = 0 && !view.canDirectFetch then (map, [])
  else if view.nearTip then
    if (alreadyInFlight < maxCmpctBlocksInFlightPerBlock &&
        map.blocksInFlight peer < maxBlocksInTransitPerPeer) || requestedFromThisPeer then
      requestCompactBlock env view map peer c
    else reconstructOptimistically env view map peer c
  else if requestedFromThisPeer then (map, [.getData peer blockhash])
  else headersDirectFetchBlocks view map peer

def processBlockTxn (map : BlockDownloadMap) (peer : NodeId) (blockhash : Uint256)
    (txn : List CTransaction) : BlockDownloadMap × List NetEffect :=
  if view.loadingBlocks then (map, []) else processCompactBlockTxns env view map peer blockhash txn

def processBlockMessage (map : BlockDownloadMap) (peer : NodeId) (block : CBlock) :
    BlockDownloadMap × List NetEffect :=
  let hash := env.getHash block.toCBlockHeader
  let removed := map.removeBlockRequest hash (some peer)
  if view.loadingBlocks then (map, [])
  else if view.prevKnown && isBlockMutated env block.toCBlockHeader block.vtx view.segwitActive then
    (removed, [.misbehaving peer "mutated block"])
  else processBlock env view removed block (map.isBlockRequested hash) (view.prevKnown && view.enoughWork)
end

inductive BlockMessage where
  | cmpctblock (c : CBlockHeaderAndShortTxIDs)
  | blocktxn (blockhash : Uint256) (txn : List CTransaction)
  | block (block : CBlock)
  /-- Headers that make the node ask for blocks, or its turn to ask for some. -/
  | fetch
  | disconnect

structure PeerMessage where
  peer : NodeId
  message : BlockMessage
  view : ChainView

def processMessage (env : NodeEnv) (map : BlockDownloadMap) (m : PeerMessage) :
    BlockDownloadMap × List NetEffect :=
  match m.message with
  | .cmpctblock c => processCmpctBlock env m.view map m.peer c
  | .blocktxn blockhash txn => processBlockTxn env m.view map m.peer blockhash txn
  | .block block => processBlockMessage env m.view map m.peer block
  | .fetch => headersDirectFetchBlocks m.view map m.peer
  | .disconnect => (map.filter fun entry => entry.nodeId ≠ m.peer, [])

/-- The table, with the full blocks that peers were asked for and have not sent
since. -/
structure Downloads where
  map : BlockDownloadMap
  fullRequests : List (NodeId × Uint256)

def NetEffect.fullRequest : NetEffect → Option (NodeId × Uint256)
  | .getData peer hash => some (peer, hash)
  | _ => none

/-- The requests that a message leaves open: a block answers the request for
it, and a peer that leaves answers none. -/
def PeerMessage.leavesOpen (env : NodeEnv) (m : PeerMessage) (request : NodeId × Uint256) : Bool :=
  match m.message with
  | .block block => request ≠ (m.peer, env.getHash block.toCBlockHeader)
  | .disconnect => request.1 ≠ m.peer
  | _ => true

def Downloads.receive (env : NodeEnv) (d : Downloads) (m : PeerMessage) : Downloads where
  map := (processMessage env d.map m).1
  fullRequests := d.fullRequests.filter (m.leavesOpen env) ++
    (processMessage env d.map m).2.filterMap NetEffect.fullRequest

def Downloads.run (env : NodeEnv) (messages : List PeerMessage) : Downloads :=
  messages.foldl (Downloads.receive env) ⟨[], []⟩

end Byze
