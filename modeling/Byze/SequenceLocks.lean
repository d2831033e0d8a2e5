import Byze.MoneySupply

/-! Relative lock times. The folded last locked height and time of a transaction
say the same as the condition of each input on its own. -/

namespace Byze

/-- The relative lock of an input is over in the block after `pprev`. The time of
a coin is counted from the block before the one that has it. -/
def InputUnlocked (pprev block : CBlockIndex) (txin : CTxIn) (nCoinHeight : Nat) : Prop :=
  sequenceDisabled txin.nSequence = true ∨
    if sequenceIsTime txin.nSequence then
      ∃ before, block.getAncestor (nCoinHeight - 1) = some before ∧
        before.getMedianTimePast + sequenceValue txin.nSequence * 512 ≤ pprev.getMedianTimePast
    else nCoinHeight + sequenceValue txin.nSequence ≤ block.nHeight

section
variable {pprev block : CBlockIndex} {txin : CTxIn}

theorem inputUnlocked_time_iff {nCoinHeight : Nat} (hd : ¬ sequenceDisabled txin.nSequence = true)
    (ht : sequenceIsTime txin.nSequence = true) :
    InputUnlocked pprev block txin nCoinHeight ↔ ∃ before, block.getAncestor (nCoinHeight - 1) = some before ∧
        before.getMedianTimePast + sequenceValue txin.nSequence * 512 ≤ pprev.getMedianTimePast := by
  rw [InputUnlocked, or_iff_right hd, if_pos ht]

theorem inputUnlocked_height_iff {nCoinHeight : Nat} (hd : ¬ sequenceDisabled txin.nSequence = true)
    (ht : ¬ sequenceIsTime txin.nSequence = true) :
    InputUnlocked pprev block txin nCoinHeight ↔
      nCoinHeight + sequenceValue txin.nSequence ≤ block.nHeight := by
  rw [InputUnlocked, or_iff_right hd, if_neg ht]

theorem calculateSequenceLocks_fits {inputs : List (CTxIn × Nat)} {nMinHeight nMinTime : Int} {locks : Int × Int}
    (hheights : ∀ p ∈ inputs, p.2 ≤ maxLockedCoinHeight) (hmin : nMinHeight < 2 ^ 31)
    (hok : calculateSequenceLocks block inputs (nMinHeight, nMinTime) = .ok locks) : locks.1 < 2 ^ 31 := by
  induction inputs generalizing nMinHeight nMinTime with
  | nil =>
    cases hok
    exact hmin
  | cons p inputs ih =>
    obtain ⟨txin, nCoinHeight⟩ := p
    obtain ⟨hheight, hheights⟩ := List.forall_mem_cons.mp hheights
    have hvalue : sequenceValue txin.nSequence ≤ 0xffff := Nat.and_le_right
    unfold calculateSequenceLocks at hok
    split at hok
    · exact ih hheights hmin hok
    split at hok
    · split at hok
      · cases hok
      · exact ih hheights hmin hok
    · refine ih hheights (max_lt hmin ?_) hok
      rw [maxLockedCoinHeight] at hheight
      omega

theorem evaluateSequenceLocks_iff {nMinHeight nMinTime : Int} (hb : block.nHeight = pprev.nHeight + 1) :
    evaluateSequenceLocks pprev (nMinHeight, nMinTime) = true ↔
      nMinHeight < block.nHeight ∧ nMinTime < pprev.getMedianTimePast := by
  simp only [evaluateSequenceLocks, Bool.not_eq_true', Bool.or_eq_false_iff, decide_eq_false_iff_not]
  omega

theorem calculateSequenceLocks_unlocked (hb : block.nHeight = pprev.nHeight + 1)
    (inputs : List (CTxIn × Nat)) (nMinHeight nMinTime : Int) :
    (∃ locks, calculateSequenceLocks block inputs (nMinHeight, nMinTime) = .ok locks ∧
        evaluateSequenceLocks pprev locks = true) ↔
      (nMinHeight < block.nHeight ∧ nMinTime < pprev.getMedianTimePast) ∧
        ∀ p ∈ inputs, InputUnlocked pprev block p.1 p.2 := by
  induction inputs generalizing nMinHeight nMinTime with
  | nil =>
    simp [calculateSequenceLocks, ExceptEq.pure_eq_ok, evaluateSequenceLocks_iff hb, implies_true]
  | cons p inputs ih =>
    obtain ⟨txin, nCoinHeight⟩ := p
    rw [List.forall_mem_cons]
    unfold calculateSequenceLocks
    by_cases hdisabled : sequenceDisabled txin.nSequence = true
    · have hfree : InputUnlocked pprev block txin nCoinHeight := Or.inl hdisabled
      rw [if_pos hdisabled, ih]
      simp [hfree]
    rw [if_neg hdisabled]
    by_cases htime : sequenceIsTime txin.nSequence = true
    · rw [if_pos htime, inputUnlocked_time_iff hdisabled htime]
      cases block.getAncestor (nCoinHeight - 1) with
      | none => simp
      | some before =>
        have hiff : max nMinTime ((before.getMedianTimePast : Int) +
              (sequenceValue txin.nSequence : Int) * 2 ^ 9 - 1) < pprev.getMedianTimePast ↔
            nMinTime < pprev.getMedianTimePast ∧
              before.getMedianTimePast + sequenceValue txin.nSequence * 512 ≤ pprev.getMedianTimePast := by
          omega
        simp only [Option.some.injEq, exists_eq_left', ih, hiff]
        tauto
    · have hiff : max nMinHeight ((nCoinHeight : Int) + sequenceValue txin.nSequence - 1) < block.nHeight ↔
          nMinHeight < block.nHeight ∧ nCoinHeight + sequenceValue txin.nSequence ≤ block.nHeight := by
        omega
      rw [if_neg htime, inputUnlocked_height_iff hdisabled htime, ih, hiff]
      tauto
end

/-- The sequence locks of a transaction hold exactly if that of each input does. -/
theorem sequenceLocks_iff (env : ConnectEnv) (pprev : CBlockIndex) (nTime nBits : Nat) (tx : CTransaction)
    (prevHeights : List Nat) (hversion : 2 ≤ tx.version) (hflag : env.csvHeight ≤ pprev.nHeight + 1)
    (hlength : prevHeights.length = tx.vin.length) :
    sequenceLocks env pprev (.next pprev nTime nBits) tx prevHeights = .ok true ↔
      ∀ i (hi : i < tx.vin.length), InputUnlocked pprev (.next pprev nTime nBits) (tx.vin.get ⟨i, hi⟩)
        (prevHeights.get ⟨i, hlength ▸ hi⟩) := by
  have henforced : (decide (tx.version ≥ 2) &&
      decide (env.csvHeight ≤ (CBlockIndex.next pprev nTime nBits).nHeight)) = true := by
    rw [Bool.and_eq_true, decide_eq_true_eq, decide_eq_true_eq]
    exact ⟨hversion, hflag⟩
  have hstart : ((-1 : Int) < (CBlockIndex.next pprev nTime nBits).nHeight ∧
      (-1 : Int) < pprev.getMedianTimePast) := by omega
  have hfold := calculateSequenceLocks_unlocked (CBlockIndex.nHeight_next pprev nTime nBits)
    (tx.vin.zip prevHeights) (-1) (-1)
  rw [sequenceLocks, if_pos henforced, ExceptEq.bind_eq_ok_iff]
  simp only [ExceptEq.pure_eq_ok, Except.ok.injEq]
  rw [hfold, and_iff_right hstart]
  constructor
  · intro h i hi
    have hi' : i < prevHeights.length := hlength ▸ hi
    have hmem : (tx.vin.get ⟨i, hi⟩, prevHeights.get ⟨i, hi'⟩) ∈ tx.vin.zip prevHeights := by
      rw [List.mem_iff_getElem]
      refine ⟨i, by simp [hi, hi'], by simp⟩
    exact h _ hmem
  · intro h p hp
    obtain ⟨i, hi, rfl⟩ := List.mem_iff_getElem.mp hp
    have hi' : i < tx.vin.length := by
      rw [List.length_zip] at hi
      omega
    simpa using h i hi'

def sampleLockedTx : CTransaction := ⟨2, [⟨⟨Uint256.zero, 0⟩, [], 1, []⟩], [], 0⟩

theorem sequenceLocks_iff_sample :
    sequenceLocks sampleConnectEnv (.genesis 0 0) (.next (.genesis 0 0) 0 0) sampleLockedTx [0] = .ok true := by
  apply (sequenceLocks_iff sampleConnectEnv (.genesis 0 0) 0 0 sampleLockedTx [0] (by decide) (by decide) rfl).mpr
  intro i hi
  obtain rfl : i = 0 := Nat.lt_one_iff.mp hi
  apply (inputUnlocked_height_iff (show ¬ sequenceDisabled 1 = true by decide)
    (show ¬ sequenceIsTime 1 = true by decide)).mpr
  show 0 + sequenceValue 1 ≤ 1
  decide

end Byze
