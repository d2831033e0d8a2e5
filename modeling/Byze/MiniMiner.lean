import Byze.Lib.Best
import Byze.Lib.Worklist
import Byze.Miner

/-! The mock block that bump fees are computed from: ancestor packages of a
cluster of unconfirmed transactions are mined while they pay the target feerate. -/

namespace Byze.BumpFees

variable {Txid : Type} [LinearOrder Txid]

local instance lawfulBEq_txid : LawfulBEq Txid := inferInstance

structure OutPoint (Txid : Type) where
  hash : Txid
  n : Nat
  deriving DecidableEq

/-- The sizes and fees, and the sums of them, are `int64_t` in the source. They
are any integers here: the mock block is that of the source as long as the fees
and sizes of a cluster add up to less than 2^63. -/
structure CTxMemPoolEntry (Txid : Type) where
  txid : Txid
  vin : List (OutPoint Txid)
  txSize : Int
  modifiedFee : Int

structure CTxMemPool (Txid : Type) where
  entries : List (CTxMemPoolEntry Txid)
  nodup : (entries.map CTxMemPoolEntry.txid).Nodup
  txSize_pos : ∀ e ∈ entries, 0 < e.txSize

namespace CTxMemPool
variable (pool : CTxMemPool Txid)

def find (txid : Txid) : Option (CTxMemPoolEntry Txid) := pool.entries.find? fun e => e.txid = txid

def existsTx (txid : Txid) : Bool := (pool.find txid).isSome

def getConflictTx (outpoint : OutPoint Txid) : Option Txid :=
  (pool.entries.find? fun e => outpoint ∈ e.vin).map CTxMemPoolEntry.txid

def parents (txid : Txid) : List Txid :=
  ((pool.find txid).elim [] fun e => e.vin.map OutPoint.hash).filter pool.existsTx

def children (txid : Txid) : List Txid :=
  (pool.entries.filter fun e => txid ∈ pool.parents e.txid).map CTxMemPoolEntry.txid

def getAncestors (txid : Txid) : List Txid :=
  Worklist.collect pool.parents pool.entries.length [txid]

def getDescendants (txid : Txid) : List Txid :=
  Worklist.collect pool.children pool.entries.length [txid]

def connected (txids : List Txid) : List Txid :=
  Worklist.collect (fun txid => pool.parents txid ++ pool.children txid) pool.entries.length txids

def gatherClusters (txids : List Txid) : List Txid :=
  let ret := pool.connected (txids.filter pool.existsTx)
  if 500 < ret.length then [] else ret

def calculateAncestorData (txid : Txid) : Int × Int :=
  let ancestors := (pool.getAncestors txid).filterMap pool.find
  ((ancestors.map CTxMemPoolEntry.txSize).sum, (ancestors.map CTxMemPoolEntry.modifiedFee).sum)

end CTxMemPool

structure MiniMinerMempoolEntry (Txid : Type) where
  txid : Txid
  vin : List (OutPoint Txid)
  vsizeIndividual : Int
  vsizeWithAncestors : Int
  feeIndividual : Int
  feeWithAncestors : Int

namespace MiniMinerMempoolEntry

def updateAncestorState (e : MiniMinerMempoolEntry Txid) (vsizeChange feeChange : Int) :
    MiniMinerMempoolEntry Txid :=
  { e with
    vsizeWithAncestors := e.vsizeWithAncestors + vsizeChange
    feeWithAncestors := e.feeWithAncestors + feeChange }

def minFeerate (e : MiniMinerMempoolEntry Txid) : FeeFrac :=
  FeeFrac.min ⟨e.feeWithAncestors, e.vsizeWithAncestors⟩ ⟨e.feeIndividual, e.vsizeIndividual⟩

/-- `AncestorFeerateComparator`: whether `a` is sorted before `b`. -/
def before (a b : MiniMinerMempoolEntry Txid) : Bool :=
  if a.minFeerate ≠ b.minFeerate then b.minFeerate.lt a.minFeerate else a.txid < b.txid

end MiniMinerMempoolEntry

/-- `requested` are the requested outputs of transactions in the mempool. -/
structure MiniMiner (Txid : Type) where
  readyToCalculate : Bool
  requested : List (OutPoint Txid)
  bumpFees : List (OutPoint Txid × Int)
  inBlock : List Txid
  entries : List (MiniMinerMempoolEntry Txid)
  descendants : Txid → List Txid

namespace MiniMiner

def ofEntry (pool : CTxMemPool Txid) (e : CTxMemPoolEntry Txid) : MiniMinerMempoolEntry Txid :=
  let ancestorData := pool.calculateAncestorData e.txid
  ⟨e.txid, e.vin, e.txSize, ancestorData.1, e.modifiedFee, ancestorData.2⟩

def new (pool : CTxMemPool Txid) (outpoints : List (OutPoint Txid)) : MiniMiner Txid :=
  let unknown := outpoints.filter fun o => !pool.existsTx o.hash
  let requested := outpoints.filter fun o => pool.existsTx o.hash
  let toBeReplaced := requested.flatMap fun o => (pool.getConflictTx o).elim [] pool.getDescendants
  let free := unknown.map fun o => (o, (0 : Int))
  if requested = [] then ⟨true, [], free, [], [], fun _ => []⟩
  else
    let cluster := pool.gatherClusters (requested.map OutPoint.hash)
    if cluster = [] then ⟨false, requested, free, [], [], fun _ => []⟩
    else
      { readyToCalculate := true
        requested := requested.filter fun o => o.hash ∉ toBeReplaced
        bumpFees := free ++ (requested.filter fun o => o.hash ∈ toBeReplaced).map fun o => (o, (0 : Int))
        inBlock := []
        entries := ((cluster.filter (· ∉ toBeReplaced)).filterMap pool.find).map (ofEntry pool)
        descendants := fun txid => (pool.getDescendants txid).filter (· ∉ toBeReplaced) }

variable (m : MiniMiner Txid)

def find (txid : Txid) : Option (MiniMinerMempoolEntry Txid) := m.entries.find? fun e => e.txid = txid

def parents (txid : Txid) : List Txid :=
  ((m.find txid).elim [] fun e => e.vin.map OutPoint.hash).filter fun p => (m.find p).isSome

def bestEntry (entries : List (MiniMinerMempoolEntry Txid)) : Option (MiniMinerMempoolEntry Txid) :=
  Best.best MiniMinerMempoolEntry.before entries

def ancestorsOf (txids : List Txid) : List Txid := Worklist.collect m.parents m.entries.length txids

def deductAncestors (ancestors : List (MiniMinerMempoolEntry Txid)) (e : MiniMinerMempoolEntry Txid) :
    MiniMinerMempoolEntry Txid :=
  ancestors.foldl (fun e anc =>
    if e.txid ∈ m.descendants anc.txid then
      e.updateAncestorState (-anc.vsizeIndividual) (-anc.feeIndividual)
    else e) e

def deleteAncestorPackage (ancestors : List Txid) : MiniMiner Txid :=
  { m with
    inBlock := ancestors ++ m.inBlock
    entries := (m.entries.map (m.deductAncestors (ancestors.filterMap m.find))).filter
      fun e => e.txid ∉ ancestors }

def mineBest (targetFeerate : Option CFeeRate) : Option (MiniMiner Txid) :=
  match bestEntry m.entries with
  | none => none
  | some best =>
    if targetFeerate.any fun t => best.feeWithAncestors < t.getFee best.vsizeWithAncestors then none
    else some (m.deleteAncestorPackage (m.ancestorsOf [best.txid]))

def mineLoop (targetFeerate : Option CFeeRate) : Nat → MiniMiner Txid → MiniMiner Txid
  | 0, m => m
  | rounds + 1, m =>
    match m.mineBest targetFeerate with
    | none => m
    | some m' => mineLoop targetFeerate rounds m'

def buildMockTemplate (targetFeerate : Option CFeeRate) : MiniMiner Txid :=
  { mineLoop targetFeerate m.entries.length m with readyToCalculate := false }

def bumpFee (targetFeerate : CFeeRate) (e : MiniMinerMempoolEntry Txid) : Int :=
  max (targetFeerate.getFee e.vsizeWithAncestors - e.feeWithAncestors)
    (targetFeerate.getFee e.vsizeIndividual - e.feeIndividual)

/-- The amounts by output. Of two amounts for an output the first counts. -/
def calculateBumpFees (targetFeerate : CFeeRate) : List (OutPoint Txid × Int) :=
  if !m.readyToCalculate then []
  else
    let t := m.buildMockTemplate (some targetFeerate)
    let mined := t.requested.filter fun o => o.hash ∈ t.inBlock
    let left := t.requested.filter fun o => o.hash ∉ t.inBlock
    t.bumpFees ++ mined.map (fun o => (o, (0 : Int))) ++
      left.filterMap fun o => (t.find o.hash).map fun e => (o, bumpFee targetFeerate e)

/-- All ancestors are processed, so that those processed are the ancestors. -/
def calculateTotalBumpFees (targetFeerate : CFeeRate) : Option Int :=
  if !m.readyToCalculate then none
  else
    let t := m.buildMockTemplate (some targetFeerate)
    let start := (t.requested.map OutPoint.hash).filter fun txid => txid ∉ t.inBlock ∧ (t.find txid).isSome
    let ancestors := (t.ancestorsOf start).filterMap t.find
    some (targetFeerate.getFee (ancestors.map MiniMinerMempoolEntry.vsizeIndividual).sum -
      (ancestors.map MiniMinerMempoolEntry.feeIndividual).sum)

end MiniMiner

def summedBumpFees (bumpFees : List (OutPoint Txid × Int)) (outpoints : List (OutPoint Txid)) : Int :=
  (outpoints.map fun o => ((bumpFees.find? fun p => p.1 = o).map Prod.snd).getD 0).sum

end Byze.BumpFees
