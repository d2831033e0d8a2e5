import Byze.Lib.Worklist
import Byze.MockBlock
import Byze.MoneySupply
import Byze.Wallet.SignedSize

/-! The policy for version 3 transactions, and the size of a quantum spend, which
no child of a version 3 transaction may have. -/

namespace Byze.Truc

def trucDescendantLimit : Nat := 2
def trucAncestorLimit : Nat := 2
def trucMaxVsize : Int := 10000
def trucChildMaxVsize : Int := 1000

/-- What the message of a refusal says, and of which transactions. -/
inductive Violation where
  | spendsTruc (tx parent : CTransaction)
  | spendsNonTruc (tx parent : CTransaction)
  | tooBig (tx : CTransaction) (vsize limit : Int)
  | childTooBig (tx : CTransaction) (vsize limit : Int)
  | tooManyAncestors (tx : CTransaction)
  | descendantLimit (parent : CTransaction)

variable (txid : CTransaction → Uint256)

structure CTxMemPool where
  txs : List CTransaction
  nodup : (txs.map txid).Nodup

def spends (tx parent : CTransaction) : Bool := tx.vin.any fun txin => txin.prevout.hash = txid parent

variable {txid}

namespace CTxMemPool
variable (pool : CTxMemPool txid)

def getParents (tx : CTransaction) : List CTransaction := pool.txs.filter (spends txid tx)

def getChildren (tx : CTransaction) : List CTransaction := pool.txs.filter (spends txid · tx)

def getAncestorCount (tx : CTransaction) : Nat :=
  (Worklist.collect pool.getParents pool.txs.length [tx]).length

def calculateDescendants (tx : CTransaction) : List CTransaction :=
  Worklist.collect pool.getChildren pool.txs.length [tx]

def getDescendantCount (tx : CTransaction) : Nat := (pool.calculateDescendants tx).length

end CTxMemPool

def inheritanceViolation (tx parent : CTransaction) : Option Violation :=
  if tx.version ≠ trucVersion ∧ parent.version = trucVersion then some (.spendsTruc tx parent)
  else if tx.version = trucVersion ∧ parent.version ≠ trucVersion then
    some (.spendsNonTruc tx parent)
  else none

def descendantViolation (pool : CTxMemPool txid) (directConflicts : List Uint256)
    (parent : CTransaction) : Option (Violation × Option CTransaction) :=
  let descendants := (pool.calculateDescendants parent).filter (· ≠ parent)
  let childWillBeReplaced := descendants.any fun child => directConflicts.contains (txid child)
  if pool.getDescendantCount parent + 1 > trucDescendantLimit ∧ !childWillBeReplaced then
    let sibling := descendants.head?.filter fun child =>
      pool.getDescendantCount parent = 2 ∧ pool.getAncestorCount child = 2
    some (.descendantLimit parent, sibling)
  else none

/-- The violation, with the sibling that may be evicted instead. -/
def singleTRUCChecks (pool : CTxMemPool txid) (tx : CTransaction)
    (mempoolParents : List CTransaction) (directConflicts : List Uint256) (vsize : Int) :
    Option (Violation × Option CTransaction) :=
  match mempoolParents.findSome? (inheritanceViolation tx) with
  | some violation => some (violation, none)
  | none =>
    if tx.version ≠ trucVersion then none
    else if vsize > trucMaxVsize then some (.tooBig tx vsize trucMaxVsize, none)
    else if mempoolParents.length + 1 > trucAncestorLimit then some (.tooManyAncestors tx, none)
    else
      match mempoolParents with
      | [] => none
      | parent :: _ =>
        if pool.getAncestorCount parent + 1 > trucAncestorLimit then
          some (.tooManyAncestors tx, none)
        else if vsize > trucChildMaxVsize then
          some (.childTooBig tx vsize trucChildMaxVsize, none)
        else descendantViolation pool directConflicts parent

variable {tx : CTransaction} {directConflicts : List Uint256}

theorem singleTRUCChecks_child {pool : CTxMemPool txid} {mempoolParents : List CTransaction} {vsize : Int}
    (hversion : tx.version = trucVersion) (hchild : mempoolParents ≠ [])
    (hok : singleTRUCChecks pool tx mempoolParents directConflicts vsize = none) :
    vsize ≤ trucChildMaxVsize := by
  obtain ⟨parent, rest, rfl⟩ := List.exists_cons_of_ne_nil hchild
  rw [singleTRUCChecks] at hok
  split at hok
  · cases hok
  rw [if_neg (not_not.mpr hversion)] at hok
  split at hok
  · cases hok
  split at hok
  · cases hok
  split at hok
  · cases hok
  split at hok
  · cases hok
  · omega

/-- The weight of a transaction with one quantum input and no outputs. -/
def minQuantumSpendWeight : Nat := 10670

theorem minQuantumSpendWeight_le {txin : CTxIn} (hmem : txin ∈ tx.vin)
    (hsigned : txin.QuantumSigned) : minQuantumSpendWeight ≤ getTransactionWeight tx := by
  have hin : txin.serialize.length ≤ (tx.vin.map fun txin => txin.serialize.length).sum :=
    List.le_sum_of_mem (List.mem_map_of_mem hmem)
  have hwitness : (serializeWitness txin.scriptWitness).length ≤
      (tx.vin.map fun txin => (serializeWitness txin.scriptWitness).length).sum :=
    List.le_sum_of_mem (List.mem_map_of_mem hmem)
  have hhas : tx.hasWitness = true := by
    obtain ⟨xmssSig, sphincsSig, bundle, hstack, -⟩ := hsigned.witness
    exact List.any_eq_true.mpr ⟨txin, hmem, by simp [hstack]⟩
  have hvin := getSizeOfCompactSize_pos tx.vin.length
  have hvout := getSizeOfCompactSize_pos tx.vout.length
  rw [hsigned.serialize_length] at hin
  rw [hsigned.serializeWitness_length] at hwitness
  rw [getTransactionWeight_eq, CTransaction.serialize_false_length, CTransaction.witnessSize,
    if_pos hhas, witnessScaleFactor, minQuantumSpendWeight]
  omega

variable {env : ConnectEnv} {flags : ScriptVerifyFlags}

theorem checkInputScript_quantumSigned {spentOutputs : List CTxOut}
    {nIn : Fin tx.vin.length} {txOut : CTxOut} (hp2sh : flags .p2sh = true)
    (hwitness : flags .witness = true)
    (hok : checkInputScript env flags tx spentOutputs nIn txOut = .ok ()) :
    (tx.vin.get nIn).QuantumSigned := by
  obtain ⟨hsig, -, -, -, -, xmssSig, sphincsSig, bundle, hstack, -, -, -, hx, hs, hb, -⟩ :=
    (verifyScript_spends_iff env.oqs env.ops _ _ _ _ hp2sh hwitness).mp hok
  exact ⟨hsig, xmssSig, sphincsSig, bundle, Option.some.inj hstack, hx, hs, hb⟩

variable (txid) in
/-- An output of a version 3 transaction that is alone in the mempool. -/
structure LoneParent where
  pool : CTxMemPool txid
  tx : CTransaction
  mem : tx ∈ pool.txs
  version : tx.version = trucVersion
  noParent : pool.getParents tx = []
  noChild : pool.getChildren tx = []
  n : UInt32
  txOut : CTxOut
  output : tx.vout[n.toNat]? = some txOut
  quantum : isQuantumOutput txOut.scriptPubKey = true

/-- A version 3 child spends the output and passes the script checks and the policy. -/
def LoneParent.FeeBumpable (env : ConnectEnv) (parent : LoneParent txid) : Prop :=
  ∃ (child : CTransaction) (spentOutputs : List CTxOut) (nIn : Fin child.vin.length)
    (directConflicts : List Uint256) (sigOpCost bytesPerSigop : Nat),
    child.version = trucVersion ∧ (child.vin.get nIn).prevout = ⟨txid parent.tx, parent.n⟩ ∧
    checkInputScript env standardScriptVerifyFlags child spentOutputs nIn parent.txOut = .ok () ∧
    singleTRUCChecks parent.pool child (parent.pool.getParents child) directConflicts
      (getVirtualTransactionSize (getSigOpsAdjustedWeight (getTransactionWeight child) sigOpCost
        bytesPerSigop)) = none

/-- A transaction that spends from the mempool and carries a quantum input is
larger than a version 3 child may be. -/
theorem singleTRUCChecks_quantumSigned {pool : CTxMemPool txid} {child parent : CTransaction}
    {txin : CTxIn} {sigOpCost bytesPerSigop : Nat}
    (hversion : child.version = trucVersion) (hparent : parent ∈ pool.txs) (hmem : txin ∈ child.vin)
    (hprevout : txin.prevout.hash = txid parent) (hsigned : txin.QuantumSigned) :
    singleTRUCChecks pool child (pool.getParents child) directConflicts
      (getVirtualTransactionSize (getSigOpsAdjustedWeight (getTransactionWeight child) sigOpCost
        bytesPerSigop)) ≠ none := by
  intro hok
  have hspends : spends txid child parent = true :=
    List.any_eq_true.mpr ⟨txin, hmem, decide_eq_true hprevout⟩
  have hmember := List.mem_filter.mpr ⟨hparent, hspends⟩
  have hvsize := singleTRUCChecks_child hversion (List.ne_nil_of_mem hmember) hok
  have hweight := minQuantumSpendWeight_le hmem hsigned
  have hadjusted : getTransactionWeight child ≤
      getSigOpsAdjustedWeight (getTransactionWeight child) sigOpCost bytesPerSigop := le_max_left _ _
  simp only [getVirtualTransactionSize, witnessScaleFactor, trucChildMaxVsize,
    minQuantumSpendWeight] at hvsize hweight
  omega

/-- No output of a lone version 3 transaction can pay for it. -/
theorem LoneParent.not_feeBumpable (env : ConnectEnv) (parent : LoneParent txid) :
    ¬ parent.FeeBumpable env := by
  rintro ⟨child, _, nIn, _, _, _, hversion, hprevout, hscript, hok⟩
  have hhash := congrArg COutPoint.hash hprevout
  have hsigned := checkInputScript_quantumSigned rfl rfl hscript
  exact singleTRUCChecks_quantumSigned hversion parent.mem (List.get_mem _ _) hhash hsigned hok

def mockEntry (txid : CTransaction → Uint256) (bytesPerSigop : Nat) (e : CTxMemPoolEntry) :
    BumpFees.CTxMemPoolEntry Uint256 where
  txid := txid e.tx
  vin := e.tx.vin.map fun txin => ⟨txin.prevout.hash, txin.prevout.n.toNat⟩
  txSize := getVirtualTransactionSize (getSigOpsAdjustedWeight e.getTxWeight e.sigOpCost bytesPerSigop)
  modifiedFee := e.modifiedFee

theorem mockEntry_txSize_pos (bytesPerSigop : Nat) (e : CTxMemPoolEntry) :
    0 < (mockEntry txid bytesPerSigop e).txSize := by
  have hweight := getTransactionWeight_eq e.tx
  have hadjusted := le_max_left e.getTxWeight (e.sigOpCost * bytesPerSigop)
  have hsize := e.size_ge
  simp only [CTxMemPoolEntry.getTxWeight, witnessScaleFactor, minStandardTxNonwitnessSize] at *
  simp only [mockEntry, getVirtualTransactionSize, getSigOpsAdjustedWeight, CTxMemPoolEntry.getTxWeight,
    witnessScaleFactor]
  omega

section
variable {mempool : Byze.CTxMemPool} (hnodup : (mempool.entries.map fun e => txid e.tx).Nodup)

def CTxMemPool.ofMempool : CTxMemPool txid := ⟨mempool.entries.map (·.tx), by rwa [List.map_map]⟩

/-- The assembler's mempool as the mock block of the bump fees sees it. -/
def mockMempool : BumpFees.CTxMemPool Uint256 where
  entries := mempool.entries.map (mockEntry txid mempool.nBytesPerSigop)
  nodup := by rwa [List.map_map]
  txSize_pos := by
    simp only [List.mem_map]
    rintro _ ⟨e, -, rfl⟩
    exact mockEntry_txSize_pos _ e

/-- The policy and the mock block agree on the parents of a transaction. -/
theorem mem_mockMempool_parents [LinearOrder Uint256] {e : CTxMemPoolEntry} (he : e ∈ mempool.entries) {z : Uint256} :
    z ∈ (mockMempool hnodup).parents (txid e.tx) ↔
      ∃ parent ∈ (CTxMemPool.ofMempool hnodup).getParents e.tx, txid parent = z := by
  have hmem : mockEntry txid mempool.nBytesPerSigop e ∈ (mockMempool hnodup).entries := List.mem_map_of_mem he
  have hfind : (mockMempool hnodup).find (txid e.tx) = _ := BumpFees.CTxMemPool.find_txid hmem
  rw [BumpFees.CTxMemPool.mem_parents, BumpFees.CTxMemPool.vinOf, hfind]
  simp only [Option.elim_some, mockEntry, List.map_map, CTxMemPool.getParents, CTxMemPool.ofMempool, spends,
    List.mem_filter, List.any_eq_true, decide_eq_true_eq, BumpFees.CTxMemPool.txids, mockMempool,
    List.mem_map, Function.comp_apply]
  constructor
  · rintro ⟨⟨txin, hin, rfl⟩, parent, hp, heq⟩
    exact ⟨parent.tx, ⟨⟨parent, hp, rfl⟩, txin, hin, heq.symm⟩, heq⟩
  · rintro ⟨_, ⟨⟨parent, hp, rfl⟩, txin, hin, heq⟩, rfl⟩
    exact ⟨⟨txin, hin, heq⟩, parent, hp, rfl⟩
end

def sampleParent : LoneParent (CTransaction.getHash sampleHashes) where
  pool := ⟨[⟨3, [⟨⟨Uint256.fill 9, 0⟩, [], 0, sampleWitness⟩], [sampleSpent], 0⟩], by decide⟩
  tx := ⟨3, [⟨⟨Uint256.fill 9, 0⟩, [], 0, sampleWitness⟩], [sampleSpent], 0⟩
  mem := List.mem_singleton_self _
  version := rfl
  noParent := rfl
  noChild := rfl
  n := 0
  txOut := sampleSpent
  output := rfl
  quantum := by decide

def sampleBump : CTransaction := ⟨3, [⟨⟨Uint256.fill 1, 0⟩, [], 0, sampleWitness⟩], [], 0⟩

/-- The output is spent with an accepted witness, and still no child is allowed. -/
theorem sampleParent_not_feeBumpable :
    checkInputScript sampleConnectEnv standardScriptVerifyFlags sampleBump [sampleSpent]
        ⟨0, by decide⟩ sampleParent.txOut = .ok () ∧ ¬ sampleParent.FeeBumpable sampleConnectEnv := by
  refine ⟨by decide +kernel, ?_⟩
  rintro ⟨child, _, nIn, _, _, _, hversion, hprevout, hscript, hok⟩
  have hhash := congrArg COutPoint.hash hprevout
  exact singleTRUCChecks_quantumSigned hversion sampleParent.mem (List.get_mem _ _) hhash
    (checkInputScript_quantumSigned rfl rfl hscript) hok

end Byze.Truc
