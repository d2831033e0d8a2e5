import Byze.BlockAcceptance
import Byze.Lib.Best
import Byze.Lib.StateWp
import Mathlib.Data.List.Basic

/-! The choice of the active chain: the block index, the candidates for the tip, and
the steps that change them. -/

namespace Byze.ChainSelection
open StateWp
variable {Block : Type} [LinearOrder Block]

/-- Blocks by their headers. The work of a header that passes its checks is positive,
and the verdict of `ConnectBlock` is that on the block after its ancestors. -/
structure BlockTree (Block : Type) where
  genesis : Block
  pprev : Block → Option Block
  nHeight : Block → Nat
  nChainWork : Block → Nat
  nTx : Block → Nat
  connectBlock : Block → Bool
  pprev_eq_none : ∀ b, pprev b = none → b = genesis
  pprev_genesis : pprev genesis = none
  nHeight_genesis : nHeight genesis = 0
  nHeight_pprev : ∀ b p, pprev b = some p → nHeight b = nHeight p + 1
  nChainWork_pprev : ∀ b p, pprev b = some p → nChainWork p < nChainWork b
  nTx_pos : ∀ b, 0 < nTx b
  connectBlock_genesis : connectBlock genesis = true

namespace BlockTree
variable (tree : BlockTree Block)

def branch : Nat → Block → List Block
  | 0, b => [b]
  | n + 1, b => b :: (tree.pprev b).elim [] (branch n)

def ancestors (b : Block) : List Block := tree.branch (tree.nHeight b) b

def getAncestor (b : Block) (height : Nat) : Option Block :=
  (tree.ancestors b).find? fun a => tree.nHeight a = height

end BlockTree

/-- An entry of the block index. `validTransactions` says that its validity is raised
to `BLOCK_VALID_TRANSACTIONS`. -/
structure Entry where
  failedValid : Bool
  failedChild : Bool
  validTransactions : Bool
  haveData : Bool
  chainTxCount : Nat
  nSequenceId : Int
  deriving DecidableEq

namespace Entry

def new : Entry := ⟨false, false, false, false, 0, 1⟩

def failed (e : Entry) : Bool := e.failedValid || e.failedChild

def isValidTransactions (e : Entry) : Bool := !e.failed && e.validTransactions

def haveNumChainTxs (e : Entry) : Bool := e.chainTxCount != 0

def failChild (e : Entry) : Entry := { e with failedValid := false, failedChild := true }

end Entry

/-- The active chain is that of its tip. The pairs of `blocksUnlinked` are in the order they
were inserted in. `faults` are the answers of the system, where
`true` is an error or an interruption. -/
structure Chainstate (Block : Type) where
  index : List Block
  entry : Block → Entry
  blocksUnlinked : List (Block × Block)
  nBlockSequenceId : Int
  candidates : List Block
  tip : Block
  faults : List Bool

inductive Stop
  | systemError
  | assertion
  | outOfFuel
  deriving DecidableEq

abbrev ChainM (Block : Type) := Prog (Chainstate Block) Stop

def fault : ChainM Block Bool := do
  let s ← get
  set { s with faults := s.faults.tail }
  pure (s.faults.headD false)

namespace Chainstate
variable (tree : BlockTree Block) (s : Chainstate Block)

def initial : Chainstate Block where
  index := [tree.genesis]
  entry := Function.update (fun _ => Entry.new) tree.genesis ⟨false, false, true, true, tree.nTx tree.genesis, 0⟩
  blocksUnlinked := []
  nBlockSequenceId := 2
  candidates := [tree.genesis]
  tip := tree.genesis
  faults := []

def failed (b : Block) : Bool := (s.entry b).failed

def haveData (b : Block) : Bool := (s.entry b).haveData

def linked (b : Block) : Bool := (s.entry b).haveNumChainTxs

def modifyEntry (b : Block) (f : Entry → Entry) : Chainstate Block :=
  { s with entry := Function.update s.entry b (f (s.entry b)) }

def modifyEntries (p : Block → Bool) (f : Entry → Entry) : Chainstate Block :=
  { s with entry := fun b => if b ∈ s.index ∧ p b = true then f (s.entry b) else s.entry b }

def insertCandidate (b : Block) : Chainstate Block := { s with candidates := s.candidates.insert b }

def eraseCandidate (b : Block) : Chainstate Block := { s with candidates := s.candidates.filter (· ≠ b) }

def contains (b : Block) : Bool := b ∈ tree.ancestors s.tip

/-- `CBlockIndexWorkComparator`: the first block is the worse one. -/
def workLess (a b : Block) : Bool :=
  if tree.nChainWork a > tree.nChainWork b then false
  else if tree.nChainWork a < tree.nChainWork b then true
  else if (s.entry a).nSequenceId < (s.entry b).nSequenceId then false
  else if (s.entry a).nSequenceId > (s.entry b).nSequenceId then true
  else if a < b then false
  else if a > b then true
  else false

def setBlockFailureFlags (invalidBlock : Block) : Chainstate Block :=
  s.modifyEntries
    (fun b => b ≠ invalidBlock ∧ tree.getAncestor b (tree.nHeight invalidBlock) = some invalidBlock)
    Entry.failChild

def invalidChainFound (pindexNew : Block) : Chainstate Block := s.setBlockFailureFlags tree pindexNew

def invalidBlockFound (pindex : Block) : Chainstate Block :=
  ((s.modifyEntry pindex fun e => { e with failedValid := true }).eraseCandidate pindex).invalidChainFound tree pindex

def tryAddBlockIndexCandidate (pindex : Block) : Chainstate Block :=
  if s.workLess tree pindex s.tip then s else s.insertCandidate pindex

def numberBlock (pindex : Block) : Chainstate Block :=
  let prevTxSum := tree.nTx pindex + (tree.pprev pindex).elim 0 fun p => (s.entry p).chainTxCount
  { s with
    entry := Function.update s.entry pindex
      { s.entry pindex with chainTxCount := prevTxSum, nSequenceId := s.nBlockSequenceId }
    nBlockSequenceId := s.nBlockSequenceId + 1 }

def linkBlock (pindex : Block) : Chainstate Block := (s.numberBlock tree pindex).tryAddBlockIndexCandidate tree pindex

def linkQueue : Nat → List Block → Chainstate Block → Chainstate Block
  | 0, _, s => s
  | _, [], s => s
  | n + 1, pindex :: queue, s =>
    let t := s.linkBlock tree pindex
    let waiting := (t.blocksUnlinked.filter fun e => e.1 = pindex).map Prod.snd
    linkQueue n (queue ++ waiting) { t with blocksUnlinked := t.blocksUnlinked.filter fun e => e.1 ≠ pindex }

def storeData (pindexNew : Block) : Chainstate Block :=
  s.modifyEntry pindexNew fun e => { e with haveData := true, validTransactions := e.validTransactions || !e.failed }

def receivedBlockTransactions (pindexNew : Block) : Chainstate Block :=
  let t := s.storeData pindexNew
  match tree.pprev pindexNew with
  | none => linkQueue tree (t.blocksUnlinked.length + 1) [pindexNew] t
  | some p =>
    if t.linked p then linkQueue tree (t.blocksUnlinked.length + 1) [pindexNew] t
    else if t.failed p then t
    else { t with blocksUnlinked := t.blocksUnlinked ++ [(p, pindexNew)] }

def resetBlockFailureFlags (pindex : Block) : Chainstate Block :=
  let cleared := fun b => s.failed b && (decide (tree.getAncestor b (tree.nHeight pindex) = some pindex) ||
    decide (tree.getAncestor pindex (tree.nHeight b) = some b))
  let t := s.modifyEntries cleared fun e => { e with failedValid := false, failedChild := false }
  let added := s.index.filter fun b =>
    cleared b && (t.entry b).isValidTransactions && t.linked b && s.workLess tree s.tip b
  added.foldl insertCandidate t

end Chainstate

open Chainstate
variable (tree : BlockTree Block)

def pruneBlockIndexCandidates : ChainM Block Unit := do
  modify fun s => { s with candidates := s.candidates.filter fun b => !s.workLess tree b s.tip }
  let s ← get
  if s.candidates = [] then throw .assertion else pure ()

/-- The first block on the way down to the active chain that is marked as failed or
has no data. -/
def firstUnusable (s : Chainstate Block) : List Block → Except Stop (Option Block)
  | [] => .ok none
  | pindexTest :: rest =>
    if s.contains tree pindexTest then .ok none
    else if s.linked pindexTest = false ∧ tree.nHeight pindexTest ≠ 0 then .error .assertion
    else if s.failed pindexTest || !s.haveData pindexTest then .ok (some pindexTest)
    else firstUnusable s rest

/-- The candidate and what is above the block that makes it unusable are no candidates
any more. -/
def discardChain (pindexNew pindexTest : Block) (s : Chainstate Block) : Chainstate Block :=
  let above := (tree.ancestors pindexNew).takeWhile (· ≠ pindexTest)
  let t := { s with candidates := s.candidates.filter fun b => b ∉ above ∧ b ≠ pindexTest }
  if s.failed pindexTest then t.modifyEntries (· ∈ above) fun e => { e with failedChild := true }
  else { t with blocksUnlinked := t.blocksUnlinked ++ above.filterMap fun b => (tree.pprev b).map (·, b) }

def findMostWorkLoop : Nat → ChainM Block (Option Block)
  | 0 => pure none
  | rounds + 1 => do
    let s ← get
    match Best.best (fun a b => s.workLess tree b a) s.candidates with
    | none => pure none
    | some pindexNew =>
      match firstUnusable tree s (tree.ancestors pindexNew) with
      | .error e => throw e
      | .ok none => pure (some pindexNew)
      | .ok (some pindexTest) => do
        modify (discardChain tree pindexNew pindexTest)
        findMostWorkLoop rounds

def findMostWorkChain : ChainM Block (Option Block) := do
  let s ← get
  findMostWorkLoop tree s.candidates.length

def disconnectTip : ChainM Block Unit := do
  let s ← get
  match tree.pprev s.tip with
  | none => throw .assertion
  | some p => do
    if ← fault then throw .systemError else modify fun s => { s with tip := p }

def connectTip (pindexNew : Block) : ChainM Block Bool := do
  let s ← get
  if tree.pprev pindexNew ≠ some s.tip then throw .assertion
  else if ← fault then throw .systemError
  else if !tree.connectBlock pindexNew then do
    modify fun s => s.invalidBlockFound tree pindexNew
    pure false
  else if ← fault then throw .systemError
  else do
    modify fun s => { s with tip := pindexNew }
    pure true

def disconnectTo (pindexFork : Block) : Nat → ChainM Block Unit
  | 0 => pure ()
  | n + 1 => do
    let s ← get
    if s.tip = pindexFork then pure ()
    else do
      disconnectTip tree
      disconnectTo pindexFork n

inductive Progress
  | all
  | better
  | invalid
  deriving DecidableEq

def connectBatch (oldWork : Nat) (front : Block) : List Block → ChainM Block Progress
  | [] => pure .all
  | pindexConnect :: rest => do
    if ← connectTip tree pindexConnect then do
      pruneBlockIndexCandidates tree
      let s ← get
      if oldWork < tree.nChainWork s.tip then pure .better else connectBatch oldWork front rest
    else do
      modify fun s => s.invalidChainFound tree front
      pure .invalid

def connectBatches (oldWork : Nat) : Nat → List Block → ChainM Block Progress
  | 0, _ => pure .all
  | n + 1, toConnect =>
    match (toConnect.take 32).getLast? with
    | none => pure .all
    | some front => do
      match ← connectBatch tree oldWork front (toConnect.take 32) with
      | .all => connectBatches oldWork n (toConnect.drop 32)
      | progress => pure progress

def Chainstate.findFork (s : Chainstate Block) (pindex : Block) : Option Block :=
  ((tree.getAncestor pindex (min (tree.nHeight pindex) (tree.nHeight s.tip))).elim [] tree.ancestors).find?
    (s.contains tree)

def activateBestChainStep (pindexMostWork : Block) : ChainM Block Bool := do
  let s ← get
  match s.findFork tree pindexMostWork with
  | none => throw .assertion
  | some pindexFork => do
    disconnectTo tree pindexFork (tree.nHeight s.tip)
    let toConnect := ((tree.ancestors pindexMostWork).takeWhile (· ≠ pindexFork)).reverse
    let progress ← connectBatches tree (tree.nChainWork s.tip) toConnect.length toConnect
    pure (progress == .invalid)

def knownOrMostWork : Option Block → ChainM Block (Option Block)
  | some b => pure (some b)
  | none => findMostWorkChain tree

/-- The inner loop, up to a tip that is not worse than the one it starts from: the
block aimed at, and whether blocks were connected. -/
def activateUntilBetter (startingTip : Block) : Nat → Option Block → Bool → ChainM Block (Option Block × Bool)
  | 0, _, _ => throw .outOfFuel
  | n + 1, mostWork, blocksConnected => do
    let mostWork ← knownOrMostWork tree mostWork
    let s ← get
    match mostWork with
    | none => pure (none, blocksConnected)
    | some pindexMostWork =>
      if pindexMostWork = s.tip then pure (some pindexMostWork, blocksConnected)
      else do
        let invalidFound ← activateBestChainStep tree pindexMostWork
        let mostWork := if invalidFound then none else some pindexMostWork
        let s ← get
        if s.workLess tree s.tip startingTip then activateUntilBetter startingTip n mostWork true
        else pure (mostWork, true)

inductive Finish
  | done
  | interrupted
  deriving DecidableEq

def activateLoop (fuel : Nat) : Nat → Option Block → ChainM Block Finish
  | 0, _ => throw .outOfFuel
  | n + 1, mostWork => do
    let s ← get
    let (mostWork, blocksConnected) ← activateUntilBetter tree s.tip fuel mostWork false
    if !blocksConnected then pure .done
    else if ← fault then pure .interrupted
    else do
      let s ← get
      if mostWork = some s.tip then do
        if ← fault then throw .systemError else pure .done
      else activateLoop fuel n mostWork

/-- The loops, with enough rounds for every block to be found invalid or to become the
tip. -/
def activateBestChain : ChainM Block Finish := do
  let s ← get
  let fuel := (s.index.length + 1) * (s.index.length + 2)
  activateLoop tree fuel fuel none

def markDisconnected (walkTip walkPrev toMarkFailed : Block) (s : Chainstate Block) : Chainstate Block :=
  let t := ((s.modifyEntry walkTip fun e => { e with failedValid := true }).eraseCandidate walkTip).insertCandidate
    walkPrev
  if tree.pprev toMarkFailed = some walkTip ∧ (t.entry toMarkFailed).failedValid = true then
    t.modifyEntry toMarkFailed Entry.failChild
  else t

/-- Of the blocks outside of the active chain with enough work, those above the
disconnected one are marked as failed, and others become candidates. -/
def markOutOfChain (walkTip walkPrev : Block) (headers : List Block) (s : Chainstate Block) : Chainstate Block :=
  let high := headers.filter fun b => tree.nChainWork walkPrev ≤ tree.nChainWork b
  let above := fun b => tree.getAncestor b (tree.nHeight walkTip) = some walkTip
  let t := s.modifyEntries (fun b => b ∈ high ∧ above b) Entry.failChild
  (high.filter fun b => ¬ above b ∧ ¬ t.workLess tree b walkPrev ∧ (t.entry b).isValidTransactions ∧ t.linked b).foldl
    insertCandidate t

def invalidateLoop (pindex : Block) : Nat → Block → List Block → Bool → ChainM Block (Block × Bool)
  | 0, toMarkFailed, _, wasInChain => pure (toMarkFailed, wasInChain)
  | n + 1, toMarkFailed, headers, wasInChain => do
    if ← fault then pure (toMarkFailed, wasInChain)
    else do
      let s ← get
      if s.contains tree pindex = false then pure (toMarkFailed, wasInChain)
      else do
        disconnectTip tree
        let t ← get
        modify (markDisconnected tree s.tip t.tip toMarkFailed)
        modify (markOutOfChain tree s.tip t.tip headers)
        let rest := headers.filter fun b =>
          ¬ (tree.nChainWork t.tip ≤ tree.nChainWork b ∧ tree.getAncestor b (tree.nHeight s.tip) = some s.tip)
        invalidateLoop pindex n s.tip rest true

def refillCandidates (s : Chainstate Block) : Chainstate Block :=
  (s.index.filter fun b => (s.entry b).isValidTransactions ∧ s.linked b ∧ ¬ s.workLess tree b s.tip).foldl
    insertCandidate s

def markNeverActive (pindex : Block) (wasInChain : Bool) (s : Chainstate Block) : Chainstate Block :=
  if wasInChain = false ∧ s.failed pindex = false then
    (s.modifyEntry pindex fun e => { e with failedValid := true }).eraseCandidate pindex
  else s

def invalidateBlock (pindex : Block) : ChainM Block Bool := do
  let s ← get
  match tree.pprev pindex with
  | none => pure false
  | some pprev => do
    let headers := s.index.filter fun b =>
      !s.contains tree b && !s.workLess tree b pprev && !s.failed b
    let (toMarkFailed, wasInChain) ← invalidateLoop tree pindex (tree.nHeight s.tip + 1) pindex headers false
    let s ← get
    if s.contains tree toMarkFailed then pure false
    else do
      modify (markNeverActive pindex wasInChain)
      modify (refillCandidates tree)
      modify fun s => s.invalidChainFound tree toMarkFailed
      pure true

def acceptBlockHeader (b : Block) (checks minPowChecked : Bool) : ChainM Block Bool := do
  let s ← get
  if b ≠ tree.genesis ∧ b ∈ s.index then pure (!s.failed b)
  else
    match tree.pprev b with
    -- The genesis block is in the index from the start.
    | none => pure minPowChecked
    | some p =>
      if !checks || p ∉ s.index || s.failed p || !minPowChecked then pure false
      else do
        set { s with index := b :: s.index, entry := Function.update s.entry b Entry.new }
        pure true

inductive CheckResult
  | passes
  | mutated
  | invalid

structure Arrival where
  headerChecks : Bool
  minPowChecked : Bool
  requested : Bool
  minimumChainWork : Nat
  checks : CheckResult

def acceptBlock (b : Block) (a : Arrival) : ChainM Block Bool := do
  if ← acceptBlockHeader tree b a.headerChecks a.minPowChecked then do
    let s ← get
    if s.haveData b then pure true
    else if !a.requested && (decide (tree.nChainWork b < tree.nChainWork s.tip) ||
        decide (tree.nHeight s.tip + minBlocksToKeep < tree.nHeight b) ||
        decide (tree.nChainWork b < a.minimumChainWork)) then pure true
    else
      match a.checks with
      | .mutated => pure false
      | .invalid => do
        modify fun s => s.invalidBlockFound tree b
        pure false
      | .passes => do
        if ← fault then throw .systemError
        else do
          modify fun s => s.receivedBlockTransactions tree b
          pure true
  else pure false

/-- A step of the node. A block that is invalidated or reconsidered is in the index. -/
inductive Op (Block : Type)
  | header (b : Block) (checks minPowChecked : Bool)
  | block (b : Block) (arrival : Arrival)
  | invalidate (b : Block)
  | reset (b : Block)
  | activate

def Op.prog : Op Block → ChainM Block Unit
  | .header b checks minPowChecked => do
    let _ ← acceptBlockHeader tree b checks minPowChecked
    pure ()
  | .block b arrival => do
    let _ ← acceptBlock tree b arrival
    pure ()
  | .invalidate b => do
    let s ← get
    if b ∈ s.index then do
      let _ ← invalidateBlock tree b
      pure ()
    else pure ()
  | .reset b => modify fun s => if b ∈ s.index then s.resetBlockFailureFlags tree b else s
  | .activate => do
    let _ ← activateBestChain tree
    pure ()

def Chainstate.step (s : Chainstate Block) (op : Op Block × List Bool) : Chainstate Block :=
  ((op.1.prog tree).run { s with faults := op.2 }).2

def Chainstate.run (s : Chainstate Block) (ops : List (Op Block × List Bool)) : Chainstate Block :=
  ops.foldl (Chainstate.step tree) s

end Byze.ChainSelection
