import Byze.CheckBlock

/-! How a node takes in a block: its header enters the index, its data is
checked and stored, and a block found invalid is marked failed for good. -/

namespace Byze

/-- A node's environment with the checks of a block's transactions against the
coins it spends. -/
structure ChainEnv extends NodeEnv where
  connectTransactions : CBlockHeader → List CTransaction → Except BlockReject Unit

/-- An entry of the block index. `chain` is the block with its predecessors, `ancestors`
are their hashes, and `stored` is the block data on disk. -/
structure IndexEntry where
  chain : CBlockIndex
  ancestors : List Uint256
  nChainWork : Nat
  failed : Bool
  stored : Option CBlock
  nTx : Nat

structure Node where
  index : Uint256 → Option IndexEntry
  activeTip : Option IndexEntry
  minimumChainWork : Nat

/-- One call of `ProcessNewBlock`, with the time it is made at and whether best
chain selection arrives at the block. -/
structure BlockCall where
  block : CBlock
  forceProcessing : Bool
  minPowChecked : Bool
  now : Nat
  activates : Bool

def minBlocksToKeep : Nat := 288

def getBlockProof (nBits : Nat) : Nat :=
  let v := setCompact nBits
  if v.negative ∨ v.overflow ∨ v.target = 0 then 0
  else (2 ^ 256 - 1 - v.target) / (v.target + 1) + 1

namespace Node
variable (env : ChainEnv) (node : Node)

def setEntry (hash : Uint256) (entry : IndexEntry) : Node :=
  { node with index := fun h => if h = hash then some entry else node.index h }

def addToBlockIndex (header : CBlockHeader) : IndexEntry × Node :=
  let hash := env.getHash header
  match node.index hash with
  | some entry => (entry, node)
  | none =>
    let entry : IndexEntry :=
      match node.index header.hashPrevBlock with
      | some prev => ⟨.next prev.chain header.nTime.toNat header.nBits.toNat, hash :: prev.ancestors,
          prev.nChainWork + getBlockProof header.nBits.toNat, false, none, 0⟩
      | none => ⟨.genesis header.nTime.toNat header.nBits.toNat, [hash],
          getBlockProof header.nBits.toNat, false, none, 0⟩
    (entry, node.setEntry hash entry)

def checkNewHeader (header : CBlockHeader) (now : Nat) : Except BlockReject Unit := do
  checkBlockHeader env.toNodeEnv header true
  match node.index header.hashPrevBlock with
  | none => throw ⟨.missingPrev, "prev-blk-not-found"⟩
  | some prev =>
    if prev.failed then throw ⟨.invalidPrev, "bad-prevblk"⟩
    contextualCheckBlockHeader env.toNodeEnv header prev.chain now

def acceptBlockHeader (header : CBlockHeader) (minPowChecked : Bool) (now : Nat) :
    Except BlockReject (IndexEntry × Node) := do
  let hash := env.getHash header
  if hash ≠ env.hashGenesisBlock then
    match node.index hash with
    | some entry =>
      if entry.failed then throw ⟨.cachedInvalid, "duplicate-invalid"⟩
      return (entry, node)
    | none => node.checkNewHeader env header now
  if !minPowChecked then throw ⟨.headerLowWork, "too-little-chainwork"⟩
  return node.addToBlockIndex env header

/-- What is built on an invalid block is invalid too. -/
def setBlockFailureFlags (hash : Uint256) : Node :=
  { node with index := fun h => (node.index h).map fun e =>
      if hash ∈ e.ancestors then { e with failed := true } else e }

def invalidBlockFound (hash : Uint256) (entry : IndexEntry) (reject : BlockReject) : Node :=
  if reject.result ≠ .mutated then (node.setEntry hash { entry with failed := true }).setBlockFailureFlags hash
  else node

/-- Unrequested blocks are only looked at when they may soon become the tip. -/
def skipsUnrequested (entry : IndexEntry) : Bool :=
  let hasMoreOrSameWork := node.activeTip.all fun tip => entry.nChainWork ≥ tip.nChainWork
  let tooFarAhead := match node.activeTip with
    | none => entry.chain.nHeight + 1 > minBlocksToKeep
    | some tip => entry.chain.nHeight > tip.chain.nHeight + minBlocksToKeep
  entry.nTx ≠ 0 || !hasMoreOrSameWork || tooFarAhead || entry.nChainWork < node.minimumChainWork

/-- The genesis block is stored before any block is accepted, so an entry
without data has a predecessor. -/
def checkAcceptedBlock (block : CBlock) (entry : IndexEntry) : Except BlockReject Unit := do
  checkBlock env.toNodeEnv block true true
  match entry.chain with
  | .genesis _ _ => pure ()
  | .next pprev _ _ => contextualCheckBlock env.toNodeEnv block pprev

def acceptBlock (call : BlockCall) : Except BlockReject Unit × Node :=
  let hash := env.getHash call.block.toCBlockHeader
  match node.acceptBlockHeader env call.block.toCBlockHeader call.minPowChecked call.now with
  | .error e => (.error e, node)
  | .ok (entry, node) =>
    if entry.stored.isSome then (.ok (), node)
    else if !call.forceProcessing && node.skipsUnrequested entry then (.ok (), node)
    else
      match checkAcceptedBlock env call.block entry with
      | .error e => (.error e, node.invalidBlockFound hash entry e)
      | .ok () =>
        (.ok (), node.setEntry hash { entry with stored := some call.block, nTx := call.block.vtx.length })

def connectBlock (block : CBlock) : Except BlockReject Unit := do
  checkBlock env.toNodeEnv block true true
  env.connectTransactions block.toCBlockHeader block.vtx

/-- The block that was passed in is connected, even where other data is stored. -/
def connectTip (block : CBlock) : Node :=
  let hash := env.getHash block.toCBlockHeader
  match node.index hash with
  | none => node
  | some entry =>
    if entry.stored.isSome && !entry.failed then
      match connectBlock env block with
      | .error e => node.invalidBlockFound hash entry e
      | .ok () => { node with activeTip := some entry }
    else node

def processNewBlock (call : BlockCall) : Bool × Node :=
  match checkBlock env.toNodeEnv call.block true true with
  | .error _ => (false, node)
  | .ok () =>
    match node.acceptBlock env call with
    | (.error _, node) => (false, node)
    | (.ok (), node) => (true, if call.activates then node.connectTip env call.block else node)

def run (calls : List BlockCall) : Node :=
  calls.foldl (fun node call => (node.processNewBlock env call).2) node

section
variable {env node} {header : CBlockHeader} (hne : env.getHash header ≠ env.hashGenesisBlock)
include hne

theorem acceptBlockHeader_known {e : IndexEntry} (he : node.index (env.getHash header) = some e)
    (hf : e.failed = false) (minPowChecked : Bool) (now : Nat) :
    node.acceptBlockHeader env header minPowChecked now = .ok (e, node) := by
  simp [acceptBlockHeader, hne, he, hf]

theorem acceptBlockHeader_new (he : node.index (env.getHash header) = none) (minPowChecked : Bool) (now : Nat) :
    node.acceptBlockHeader env header minPowChecked now = (node.checkNewHeader env header now >>= fun _ =>
      if !minPowChecked then .error ⟨.headerLowWork, "too-little-chainwork"⟩
      else .ok (node.addToBlockIndex env header)) := by
  simp [acceptBlockHeader, hne, he]
end

end Node

end Byze
