import Byze.RequiredWork

/-! Retargeting at a steady rate. A period of `n` blocks is measured from its
first block to its last, which is one spacing short of the period. -/

namespace Byze

def EvenlySpaced (spacing : Nat) : Nat → CBlockIndex → Prop
  | 0, _ => True
  | _ + 1, .genesis _ _ => True
  | k + 1, .next pprev nTime _ => nTime = pprev.getBlockTime + spacing ∧ EvenlySpaced spacing k pprev

theorem CBlockIndex.getAncestor_nHeight (c : CBlockIndex) : c.getAncestor c.nHeight = some c := by
  cases c <;> simp [CBlockIndex.getAncestor]

theorem EvenlySpaced.getBlockTime {spacing k j : Nat} {c a : CBlockIndex} (h : EvenlySpaced spacing k c)
    (hj : j ≤ k) (hheight : j ≤ c.nHeight) (ha : c.getAncestor (c.nHeight - j) = some a) :
    c.getBlockTime = a.getBlockTime + j * spacing := by
  induction j generalizing k c with
  | zero =>
    rw [Nat.sub_zero, CBlockIndex.getAncestor_nHeight] at ha
    obtain rfl := Option.some.inj ha
    omega
  | succ j ih =>
    cases c with
    | genesis t b => exact absurd hheight (by simp)
    | next pprev t b =>
      obtain ⟨k, rfl⟩ : ∃ k', k = k' + 1 := ⟨k - 1, by omega⟩
      obtain ⟨htime, hprev⟩ := h
      simp only [CBlockIndex.nHeight_next] at hheight ha
      have hne : ¬ pprev.nHeight + 1 - (j + 1) = pprev.nHeight + 1 := by omega
      have hsub : pprev.nHeight + 1 - (j + 1) = pprev.nHeight - j := by omega
      rw [CBlockIndex.getAncestor, if_neg hne, hsub] at ha
      have hrest := ih hprev (by omega) (by omega) ha
      have hmul : (j + 1) * spacing = j * spacing + spacing := by ring
      change t = _
      omega

theorem compactRound_mul_two_pow {w : Nat} (k : Nat) (hw : w < 2 ^ 23) :
    compactRound (w * 2 ^ (8 * k)) = w * 2 ^ (8 * k) := by
  have hlt : w * 2 ^ (8 * k) < 2 ^ (23 + 8 * k) := by
    rw [pow_add]
    exact Nat.mul_lt_mul_of_pos_right hw (Nat.two_pow_pos _)
  have hsize := Nat.size_le.mpr hlt
  have hdrop : compactDrop (w * 2 ^ (8 * k)).size ≤ 8 * k := by
    rw [compactDrop]
    omega
  exact LeadingBits.clearLow_eq_self (Dvd.dvd.mul_left (Nat.pow_dvd_pow 2 hdrop) w)

theorem compactRound_setCompact (nCompact : Nat) :
    compactRound (setCompact nCompact).target = (setCompact nCompact).target := by
  have hmask : nCompact &&& 0x007fffff < 2 ^ 23 := by
    rw [and_mantissa]
    exact Nat.mod_lt _ (by norm_num)
  simp only [setCompact]
  generalize nCompact &&& 0x007fffff = w at hmask
  generalize nCompact >>> 24 = n
  by_cases h3 : n ≤ 3
  · have hle : w >>> (8 * (3 - n)) ≤ w := by
      rw [Nat.shiftRight_eq_div_pow]
      exact Nat.div_le_self _ _
    have hround := compactRound_mul_two_pow 0 (lt_of_le_of_lt hle hmask)
    simpa [h3] using hround
  · simp only [h3, if_false, Nat.shiftLeft_eq]
    by_cases hbig : 256 ≤ 8 * (n - 3)
    · have hzero := Nat.mod_eq_zero_of_dvd (Dvd.dvd.mul_left (Nat.pow_dvd_pow 2 hbig) w)
      rw [hzero]
      rfl
    · have hsplit : (2 : Nat) ^ 256 = 2 ^ (256 - 8 * (n - 3)) * 2 ^ (8 * (n - 3)) := by
        rw [← pow_add, Nat.sub_add_cancel (by omega)]
      rw [hsplit, Nat.mul_mod_mul_right]
      exact compactRound_mul_two_pow _ (lt_of_le_of_lt (Nat.mod_le _ _) hmask)

theorem mulUint32_le (x n : Nat) : mulUint32 x n ≤ x * n := by
  exact le_trans (Nat.mod_le _ _) (Nat.mul_le_mul_left x (Nat.mod_le _ _))

theorem scaleTarget_lt {params : Params} {target n : Nat} (hpos : 0 < target)
    (hn : n < params.nPowTargetTimespan) : scaleTarget params target n < target := by
  have hdiv : mulUint32 target n / params.nPowTargetTimespan < target := by
    refine Nat.div_lt_of_lt_mul ?_
    calc mulUint32 target n ≤ target * n := mulUint32_le target n
      _ < target * params.nPowTargetTimespan := Nat.mul_lt_mul_of_pos_left hn hpos
      _ = params.nPowTargetTimespan * target := Nat.mul_comm _ _
  simp only [scaleTarget]
  split <;> omega

theorem scaleTarget_zero (params : Params) (timespan : Int) : scaleTarget params 0 timespan = 0 := by
  simp [scaleTarget, mulUint32]

theorem clampTimespan_steady (params : Params) : ∃ n : Nat, clampTimespan params
        ((params.difficultyAdjustmentInterval - 1) * params.nPowTargetSpacing : Nat) = n ∧
      n < params.nPowTargetTimespan := by
  have hspacing := params.spacing_pos
  have hmul : params.difficultyAdjustmentInterval * params.nPowTargetSpacing ≤ params.nPowTargetTimespan :=
    Nat.div_mul_le_self _ _
  have hshort : (params.difficultyAdjustmentInterval - 1) * params.nPowTargetSpacing <
      params.nPowTargetTimespan := by
    have hlt := Nat.mul_lt_mul_of_pos_right (Nat.sub_lt params.interval_pos Nat.one_pos) hspacing
    omega
  refine ⟨max (params.nPowTargetTimespan / 4)
    ((params.difficultyAdjustmentInterval - 1) * params.nPowTargetSpacing), ?_, by omega⟩
  simp only [clampTimespan]
  split <;> split <;> omega

section
variable {params : Params} {c first : CBlockIndex} {t : Nat}

theorem EndsPeriod.steady_timespan (h : EndsPeriod params c)
    (hsteady : EvenlySpaced params.nPowTargetSpacing params.difficultyAdjustmentInterval c)
    (hf : firstOfPeriod c params = some first) :
    (c.getBlockTime : Int) - first.getBlockTime =
      ((params.difficultyAdjustmentInterval - 1) * params.nPowTargetSpacing : Nat) := by
  have hle := interval_le_of_mod (Nat.succ_pos _) h.last
  have htime := hsteady.getBlockTime (Nat.sub_le _ 1) (by omega) hf
  omega

theorem EndsPeriod.steady_retarget (h : EndsPeriod params c)
    (hsteady : EvenlySpaced params.nPowTargetSpacing params.difficultyAdjustmentInterval c)
    (hf : firstOfPeriod c params = some first) :
    ∃ n < params.nPowTargetTimespan, getNextWorkRequired c t params =
      some (getCompact (scaleTarget params (setCompact (retargetBase params first c).nBits).target
        (n : Nat)) false) := by
  obtain ⟨n, hclamp, hn⟩ := clampTimespan_steady params
  refine ⟨n, hn, ?_⟩
  rw [h.getNextWorkRequired_eq hf, h.steady_timespan hsteady hf, hclamp]

/-- After a period of evenly spaced blocks the retarget gives the target back,
rounded to its compact form, only if that target is zero. -/
theorem steady_retarget_keeps_target_iff (h : EndsPeriod params c)
    (hsteady : EvenlySpaced params.nPowTargetSpacing params.difficultyAdjustmentInterval c) (t : Nat) :
    ∃ first nBits, firstOfPeriod c params = some first ∧ getNextWorkRequired c t params = some nBits ∧
      ((setCompact nBits).target = compactRound (setCompact (retargetBase params first c).nBits).target ↔
        (setCompact (retargetBase params first c).nBits).target = 0) := by
  obtain ⟨first, hf⟩ := firstOfPeriod_isSome c params
  obtain ⟨n, hn, hbits⟩ : ∃ n < params.nPowTargetTimespan, getNextWorkRequired c t params = _ :=
    h.steady_retarget hsteady hf
  refine ⟨first, _, hf, hbits, ?_⟩
  have hlimit := scaleTarget_le params (setCompact (retargetBase params first c).nBits).target n
  rw [setCompact_getCompact (lt_of_le_of_lt hlimit params.powLimit_lt), compactRound_setCompact]
  generalize (setCompact (retargetBase params first c).nBits).target = target
  constructor
  · intro heq
    by_contra hne
    have hlt := scaleTarget_lt (Nat.pos_of_ne_zero hne) hn
    have hround := compactRound_le (scaleTarget params target n)
    dsimp only at heq
    omega
  · rintro rfl
    rw [scaleTarget_zero]
    rfl
end

def steadyChain (nBits : Nat) : Nat → CBlockIndex
  | 0 => .genesis 1777337372 nBits
  | height + 1 => .next (steadyChain nBits height) (1777337372 + 600 * (height + 1)) nBits

theorem steadyChain_getBlockTime (nBits height : Nat) :
    (steadyChain nBits height).getBlockTime = 1777337372 + 600 * height := by
  cases height <;> rfl

theorem steadyChain_evenlySpaced (nBits k height : Nat) : EvenlySpaced 600 k (steadyChain nBits height) := by
  induction k generalizing height with
  | zero => trivial
  | succ k ih =>
    cases height with
    | zero => trivial
    | succ height =>
      refine ⟨?_, ih height⟩
      rw [steadyChain_getBlockTime]
      omega

theorem steady_retarget_keeps_target_sample :
    ∃ first nBits, firstOfPeriod (steadyChain 0 10001) (consensusParams .main) = some first ∧
      getNextWorkRequired (steadyChain 0 10001) 0 (consensusParams .main) = some nBits ∧
      ((setCompact nBits).target = compactRound (setCompact (retargetBase (consensusParams .main) first
          (steadyChain 0 10001)).nBits).target ↔
        (setCompact (retargetBase (consensusParams .main) first (steadyChain 0 10001)).nBits).target = 0) :=
  steady_retarget_keeps_target_iff ⟨by decide +kernel, rfl, by decide +kernel⟩ (steadyChain_evenlySpaced _ _ _) 0

/-- On the main network a steady period takes a sixth off the target. -/
theorem steady_retarget_takes_a_sixth :
    getNextWorkRequired (steadyChain 0x1d0c0000 10001) 0 (consensusParams .main) = some 0x1d0a0000 ∧
      (setCompact 0x1d0a0000).target * 6 = (setCompact 0x1d0c0000).target * 5 ∧
      (setCompact 0x1d0c0000).target < (consensusParams .main).powLimit := by
  decide +kernel

end Byze
