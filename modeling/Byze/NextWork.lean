import Byze.CompactTarget

/-! The proof-of-work parameters, the chain of block indexes and the required
difficulty of the next block. -/

namespace Byze

/-- The proof-of-work part of `Consensus::Params`. The last four fields say
that the adjustment interval is not zero and that `int64_t` does not overflow. -/
structure Params where
  powLimit : Nat
  fPowAllowMinDifficultyBlocks : Bool
  enforceBIP94 : Bool
  fPowNoRetargeting : Bool
  nPowTargetSpacing : Nat
  nPowTargetTimespan : Nat
  fSoftLaunch : Bool
  nSoftLaunchHeight : Nat
  powLimit_lt : powLimit < 2 ^ 256
  spacing_pos : 0 < nPowTargetSpacing
  spacing_le : nPowTargetSpacing ≤ nPowTargetTimespan
  timespan_lt : nPowTargetTimespan * 4 < 2 ^ 63

def Params.difficultyAdjustmentInterval (params : Params) : Nat :=
  params.nPowTargetTimespan / params.nPowTargetSpacing

def Params.powLimitBits (params : Params) : Nat := getCompact params.powLimit false

theorem Params.interval_pos (params : Params) : 0 < params.difficultyAdjustmentInterval :=
  Nat.div_pos params.spacing_le params.spacing_pos

theorem Params.timespan_pos (params : Params) : 0 < params.nPowTargetTimespan :=
  lt_of_lt_of_le params.spacing_pos params.spacing_le

def medianTimeSpan : Nat := 11

/-- Of an even number of times, the later one of the two in the middle. -/
def medianTime (times : List Nat) : Nat :=
  let pmedian := times.mergeSort
  pmedian.getD (pmedian.length / 2) 0

theorem medianTime_mem {times : List Nat} (h : times ≠ []) : medianTime times ∈ times := by
  have hlength := List.length_pos_iff.mpr h
  have hmid : times.mergeSort.length / 2 < times.mergeSort.length := by
    rw [List.length_mergeSort]
    omega
  rw [medianTime, List.getD_eq_getElem _ _ hmid]
  exact List.mem_mergeSort.mp (List.getElem_mem hmid)

inductive CBlockIndex where
  | genesis (nTime nBits : Nat)
  | next (pprev : CBlockIndex) (nTime nBits : Nat)
  deriving DecidableEq, Repr

namespace CBlockIndex

def nHeight : CBlockIndex → Nat
  | genesis _ _ => 0
  | next pprev _ _ => pprev.nHeight + 1

def nBits : CBlockIndex → Nat
  | genesis _ nBits => nBits
  | next _ _ nBits => nBits

def getBlockTime : CBlockIndex → Nat
  | genesis nTime _ => nTime
  | next _ nTime _ => nTime

def lastTimes : Nat → CBlockIndex → List Nat
  | 0, _ => []
  | _ + 1, .genesis nTime _ => [nTime]
  | n + 1, .next pprev nTime _ => nTime :: pprev.lastTimes n

def getMedianTimePast (pindex : CBlockIndex) : Nat := medianTime (pindex.lastTimes medianTimeSpan)

def getAncestor (height : Nat) : CBlockIndex → Option CBlockIndex
  | genesis nTime nBits => if height = 0 then some (genesis nTime nBits) else none
  | next pprev nTime nBits =>
    if height = pprev.nHeight + 1 then some (next pprev nTime nBits) else pprev.getAncestor height

def lastNonMinDifficulty (params : Params) : CBlockIndex → CBlockIndex
  | genesis nTime nBits => genesis nTime nBits
  | next pprev nTime nBits =>
    if (pprev.nHeight + 1) % params.difficultyAdjustmentInterval ≠ 0 ∧ nBits = params.powLimitBits then
      pprev.lastNonMinDifficulty params
    else next pprev nTime nBits

@[simp] theorem nHeight_genesis (t b : Nat) : (genesis t b).nHeight = 0 := rfl
@[simp] theorem nHeight_next (c : CBlockIndex) (t b : Nat) : (next c t b).nHeight = c.nHeight + 1 := rfl
@[simp] theorem nBits_genesis (t b : Nat) : (genesis t b).nBits = b := rfl
@[simp] theorem nBits_next (c : CBlockIndex) (t b : Nat) : (next c t b).nBits = b := rfl

theorem getAncestor_isSome {c : CBlockIndex} {height : Nat} (h : height ≤ c.nHeight) :
    ∃ a, c.getAncestor height = some a := by
  induction c with
  | genesis t b =>
    have h0 : height = 0 := by simpa using h
    exact ⟨genesis t b, by simp [getAncestor, h0]⟩
  | next pprev t b ih =>
    by_cases he : height = pprev.nHeight + 1
    · exact ⟨next pprev t b, by simp [getAncestor, he]⟩
    · obtain ⟨a, ha⟩ := ih (by simp at h; omega)
      exact ⟨a, by simp [getAncestor, he, ha]⟩

theorem getAncestor_le {c a : CBlockIndex} {height : Nat} (h : c.getAncestor height = some a) :
    height ≤ c.nHeight := by
  induction c with
  | genesis t b =>
    by_cases h0 : height = 0
    · simp [h0]
    · simp [getAncestor, h0] at h
  | next pprev t b ih =>
    by_cases he : height = pprev.nHeight + 1
    · exact le_of_eq he
    · simp only [getAncestor, he] at h
      exact le_trans (ih h) (Nat.le_succ _)

end CBlockIndex

/-- `bnNew *= nTimespan`: the factor is narrowed to 32 bits and the product
wraps at 256. -/
def mulUint32 (x : Nat) (b : Int) : Nat := x * (b % 2 ^ 32).toNat % 2 ^ 256

def scaleTarget (params : Params) (target : Nat) (timespan : Int) : Nat :=
  let bnNew := mulUint32 target timespan / params.nPowTargetTimespan
  if bnNew > params.powLimit then params.powLimit else bnNew

def clampTimespan (params : Params) (nActualTimespan : Int) : Int :=
  let lower := if nActualTimespan < (params.nPowTargetTimespan / 4 : Nat) then
    ((params.nPowTargetTimespan / 4 : Nat) : Int) else nActualTimespan
  if lower > (params.nPowTargetTimespan * 4 : Nat) then
    ((params.nPowTargetTimespan * 4 : Nat) : Int) else lower

def firstOfPeriod (pindexLast : CBlockIndex) (params : Params) : Option CBlockIndex :=
  pindexLast.getAncestor (pindexLast.nHeight - (params.difficultyAdjustmentInterval - 1))

/-- `none` stands for a missing ancestor, where the code dereferences null. -/
def calculateNextWorkRequired (pindexLast : CBlockIndex) (nFirstBlockTime : Int)
    (params : Params) : Option Nat := do
  let nActualTimespan := clampTimespan params (pindexLast.getBlockTime - nFirstBlockTime)
  let base ← if params.enforceBIP94 then firstOfPeriod pindexLast params else some pindexLast
  let bnNew := scaleTarget params (setCompact base.nBits).target nActualTimespan
  some (getCompact bnNew false)

/-- `none` stands for a failed assertion. -/
def getNextWorkRequired (pindexLast : CBlockIndex) (blockTime : Nat) (params : Params) :
    Option Nat :=
  let nextHeight := pindexLast.nHeight + 1
  if params.fSoftLaunch ∧ nextHeight ≤ params.nSoftLaunchHeight then some params.powLimitBits
  else if params.fPowNoRetargeting then some params.powLimitBits
  else if nextHeight % params.difficultyAdjustmentInterval ≠ 0 then
    if params.fPowAllowMinDifficultyBlocks then
      if blockTime > pindexLast.getBlockTime + params.nPowTargetSpacing * 2 then
        some params.powLimitBits
      else some (pindexLast.lastNonMinDifficulty params).nBits
    else some pindexLast.nBits
  else if pindexLast.nHeight < params.difficultyAdjustmentInterval - 1 then none
  else do
    let pindexFirst ← firstOfPeriod pindexLast params
    calculateNextWorkRequired pindexLast pindexFirst.getBlockTime params

def permittedDifficultyTransition (params : Params) (height oldNbits newNbits : Nat) : Bool :=
  if params.fPowAllowMinDifficultyBlocks then true
  else if height % params.difficultyAdjustmentInterval = 0 then
    let smallestTimespan := params.nPowTargetTimespan / 4
    let largestTimespan := params.nPowTargetTimespan * 4
    let observedNewTarget := (setCompact newNbits).target
    let largestDifficultyTarget := scaleTarget params (setCompact oldNbits).target largestTimespan
    let maximumNewTarget := (setCompact (getCompact largestDifficultyTarget false)).target
    let smallestDifficultyTarget := scaleTarget params (setCompact oldNbits).target smallestTimespan
    let minimumNewTarget := (setCompact (getCompact smallestDifficultyTarget false)).target
    if maximumNewTarget < observedNewTarget then false
    else if minimumNewTarget > observedNewTarget then false
    else true
  else if oldNbits ≠ newNbits then false
  else true

def deriveTarget (nBits powLimit : Nat) : Option Nat :=
  let v := setCompact nBits
  if v.negative ∨ v.target = 0 ∨ v.overflow ∨ v.target > powLimit then none else some v.target

/-- The chains grown from a genesis block in which every block carries the
difficulty required of it. -/
inductive WorkChain (params : Params) (genesisTime genesisBits : Nat) : CBlockIndex → Prop where
  | genesis : WorkChain params genesisTime genesisBits (.genesis genesisTime genesisBits)
  | next {pprev : CBlockIndex} {nTime nBits : Nat}
      (hp : WorkChain params genesisTime genesisBits pprev)
      (hb : getNextWorkRequired pprev nTime params = some nBits) :
      WorkChain params genesisTime genesisBits (.next pprev nTime nBits)

end Byze
