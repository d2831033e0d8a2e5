import Byze.CheckBlock

/-! Compact blocks: a header with short ids, the transactions found for them,
and the block filled in from these. -/

namespace Byze

structure PrefilledTransaction where
  index : Nat
  tx : CTransaction

/-- A header with the short ids of the transactions that are not sent along,
and the keyed hash that gives a transaction its short id. -/
structure CBlockHeaderAndShortTxIDs where
  header : CBlockHeader
  shorttxids : List Nat
  prefilledtxn : List PrefilledTransaction
  getShortID : Uint256 → Nat

inductive ReadStatus where
  | ok | invalid | failed
  deriving DecidableEq

structure PartiallyDownloadedBlock where
  header : CBlockHeader
  txnAvailable : List (Option CTransaction)
  deriving DecidableEq

def PartiallyDownloadedBlock.empty : PartiallyDownloadedBlock := ⟨CBlockHeader.null, []⟩

def CBlockHeaderAndShortTxIDs.blockTxCount (c : CBlockHeaderAndShortTxIDs) : Nat :=
  c.shorttxids.length + c.prefilledtxn.length

def minSerializableTransactionWeight : Nat := witnessScaleFactor * 10

def CTransaction.isNull (tx : CTransaction) : Bool := tx.vin = [] ∧ tx.vout = []

/-- The prefilled transactions at their places: `placed` of them are in, and
`next` is the first index that the next one can have. -/
def placePrefilled (shortCount : Nat) : Nat → Nat → List (Option CTransaction) →
    List PrefilledTransaction → Bool × List (Option CTransaction)
  | _, _, available, [] => (true, available)
  | placed, next, available, prefilled :: rest =>
    if prefilled.tx.isNull then (false, available)
    else if next + prefilled.index > 0xffff then (false, available)
    else if next + prefilled.index > shortCount + placed then (false, available)
    else placePrefilled shortCount (placed + 1) (next + prefilled.index + 1)
      (available.set (next + prefilled.index) (some prefilled.tx)) rest

def freePlaces (available : List (Option CTransaction)) : List Nat :=
  (List.range available.length).filter fun i => (available.getD i none).isNone

structure TxnScan where
  available : List (Option CTransaction)
  haveTxn : List Nat
  mempoolCount : Nat

/-- A transaction at hand: it takes the place of its short id, and a second one
for a place empties it again where `clash` says so. -/
def TxnScan.offer (places : List (Nat × Nat)) (shortID : Nat) (tx : CTransaction)
    (clash : CTransaction → Bool) (scan : TxnScan) : TxnScan :=
  match places.lookup shortID with
  | none => scan
  | some place =>
    if place ∉ scan.haveTxn then
      { available := scan.available.set place (some tx)
        haveTxn := place :: scan.haveTxn
        mempoolCount := scan.mempoolCount + 1 }
    else if (scan.available.getD place none).any clash then
      { scan with
        available := scan.available.set place none
        mempoolCount := scan.mempoolCount - 1 }
    else scan

def TxnScan.offerAll (places : List (Nat × Nat)) (shortID : Uint256 → Nat)
    (clash : Uint256 → CTransaction → Bool) : List (Uint256 × CTransaction) → TxnScan → TxnScan
  | [], scan => scan
  | (wtxid, tx) :: rest, scan =>
    let scan := scan.offer places (shortID wtxid) tx (clash wtxid)
    if scan.mempoolCount = places.length then scan else offerAll places shortID clash rest scan

namespace PartiallyDownloadedBlock
variable (env : NodeEnv)

/-- `unevenBuckets` is whether the table of short ids has an overfull bucket. -/
def initData (unevenBuckets : List Nat → Bool) (pool extraTxn : List (Uint256 × CTransaction))
    (p : PartiallyDownloadedBlock) (c : CBlockHeaderAndShortTxIDs) :
    ReadStatus × PartiallyDownloadedBlock :=
  if c.header.isNull ∨ c.shorttxids = [] ∧ c.prefilledtxn = [] then (.invalid, p)
  else if c.blockTxCount > maxBlockWeight / minSerializableTransactionWeight then (.invalid, p)
  else if ¬ p.header.isNull ∨ p.txnAvailable ≠ [] then (.invalid, p)
  else
    let placed := placePrefilled c.shorttxids.length 0 0 (List.replicate c.blockTxCount none) c.prefilledtxn
    if !placed.1 then (.invalid, ⟨c.header, placed.2⟩)
    else if unevenBuckets c.shorttxids then (.failed, ⟨c.header, placed.2⟩)
    else if ¬ c.shorttxids.Nodup then (.failed, ⟨c.header, placed.2⟩)
    else
      let places := c.shorttxids.zip (freePlaces placed.2)
      let scan := TxnScan.offerAll places c.getShortID (fun _ _ => true) pool ⟨placed.2, [], 0⟩
      let scan := TxnScan.offerAll places c.getShortID
        (fun wtxid tx => tx.getWitnessHash env.hashes ≠ wtxid) extraTxn scan
      (.ok, ⟨c.header, scan.available⟩)

def isTxAvailable (p : PartiallyDownloadedBlock) (index : Nat) : Bool :=
  !p.header.isNull && (p.txnAvailable.getD index none).isSome

end PartiallyDownloadedBlock

def isBlockMutated (env : NodeEnv) (header : CBlockHeader) (vtx : List CTransaction)
    (checkWitnessRoot : Bool) : Bool :=
  if checkMerkleRoot env header vtx ≠ .ok () then true
  else if !(vtx.head?.any CTransaction.isCoinBase) then
    vtx.any fun tx => (tx.serialize false).length = 64
  else decide (checkWitnessMalleation env vtx checkWitnessRoot ≠ .ok ())

/-- The transactions of the block, and those of the missing ones left over. -/
def fillTxns : List (Option CTransaction) → List CTransaction → Option (List CTransaction × List CTransaction)
  | [], missing => some ([], missing)
  | none :: _, [] => none
  | none :: available, tx :: missing =>
    (fillTxns available missing).map fun r => (tx :: r.1, r.2)
  | some tx :: available, missing =>
    (fillTxns available missing).map fun r => (tx :: r.1, r.2)

/-- Unless it is `invalid`, filling a block leaves nothing for a second try. -/
inductive FillResult where
  | invalid
  | failed
  | ok (block : CBlock)

def PartiallyDownloadedBlock.fillBlock (env : NodeEnv) (p : PartiallyDownloadedBlock)
    (vtxMissing : List CTransaction) (segwitActive : Bool) : FillResult :=
  if p.header.isNull then .invalid
  else
    match fillTxns p.txnAvailable vtxMissing with
    | none => .invalid
    | some (vtx, rest) =>
      if rest ≠ [] then .invalid
      else if isBlockMutated env p.header vtx segwitActive then .failed
      else .ok { toCBlockHeader := p.header, vtx := vtx, quantumSignatures := .null }

theorem PartiallyDownloadedBlock.fillBlock_ok {env : NodeEnv} {p : PartiallyDownloadedBlock}
    {vtxMissing : List CTransaction} {segwitActive : Bool} {block : CBlock}
    (h : p.fillBlock env vtxMissing segwitActive = .ok block) :
    block.toCBlockHeader = p.header ∧ block.quantumSignatures = .null ∧ p.header.isNull = false := by
  revert h
  simp only [fillBlock]
  split
  · intro h
    cases h
  rename_i hnull
  split
  · intro h
    cases h
  split
  · intro h
    cases h
  split
  · intro h
    cases h
  · intro h
    cases h
    exact ⟨rfl, rfl, by simpa using hnull⟩

theorem PartiallyDownloadedBlock.initData_header (env : NodeEnv) (unevenBuckets : List Nat → Bool)
    (pool extraTxn : List (Uint256 × CTransaction)) (p : PartiallyDownloadedBlock)
    (c : CBlockHeaderAndShortTxIDs) :
    p.initData env unevenBuckets pool extraTxn c = (.invalid, p) ∨
      (p.initData env unevenBuckets pool extraTxn c).2.header = c.header := by
  simp only [initData]
  repeat' split
  iterate 3 exact .inl rfl
  all_goals exact .inr rfl

end Byze
