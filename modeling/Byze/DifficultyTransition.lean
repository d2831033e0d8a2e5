import Byze.RequiredWork

/-! The headers-only check of a difficulty change accepts every change that
the required difficulty makes. -/

namespace Byze
open CBlockIndex

theorem toNat_emod_uint32 {n : Nat} (hn : n < 2 ^ 32) : (((n : Nat) : Int) % 2 ^ 32).toNat = n := by
  omega

theorem clampTimespan_spec (params : Params) (a : Int) :
    ∃ n : Nat, clampTimespan params a = n ∧ params.nPowTargetTimespan / 4 ≤ n ∧
      n ≤ params.nPowTargetTimespan * 4 := by
  refine ⟨(clampTimespan params a).toNat, ?_, ?_, ?_⟩ <;>
    · simp only [clampTimespan]
      split <;> split <;> omega

variable {params : Params}

theorem setCompact_getCompact_target {x : Nat} (hx : x ≤ params.powLimit) :
    (setCompact (getCompact x false)).target = compactRound x := by
  rw [setCompact_getCompact (lt_of_le_of_lt hx params.powLimit_lt)]

def CompactBelowLimit (params : Params) (nBits : Nat) : Prop :=
  ∃ x, x ≤ params.powLimit ∧ nBits = getCompact x false

theorem CompactBelowLimit.target_le {b : Nat} (h : CompactBelowLimit params b) :
    (setCompact b).target ≤ params.powLimit := by
  obtain ⟨x, hx, rfl⟩ := h
  exact (withinLimit_getCompact hx).2.2

theorem CompactBelowLimit.round_target {b : Nat} (h : CompactBelowLimit params b) :
    compactRound (setCompact b).target = (setCompact b).target := by
  obtain ⟨x, hx, rfl⟩ := h
  rw [setCompact_getCompact_target hx, compactRound_idem]

section
variable (h32 : params.nPowTargetTimespan * 4 < 2 ^ 32)
  (hov : params.powLimit * 4 * params.nPowTargetTimespan < 2 ^ 256)

include h32 hov

theorem mulUint32_eq {x n : Nat} (hx : x ≤ params.powLimit) (hn : n ≤ params.nPowTargetTimespan * 4) :
    mulUint32 x n = x * n := by
  have hle := Nat.mul_le_mul hx hn
  have he : params.powLimit * (params.nPowTargetTimespan * 4) =
      params.powLimit * 4 * params.nPowTargetTimespan := by ring
  unfold mulUint32
  rw [toNat_emod_uint32 (lt_of_le_of_lt hn h32), Nat.mod_eq_of_lt (by omega)]

theorem scaleTarget_mono {x m n : Nat} (hx : x ≤ params.powLimit) (hmn : m ≤ n)
    (hn : n ≤ params.nPowTargetTimespan * 4) : scaleTarget params x m ≤ scaleTarget params x n := by
  have hdiv : x * m / params.nPowTargetTimespan ≤ x * n / params.nPowTargetTimespan :=
    Nat.div_le_div_right (Nat.mul_le_mul_left x hmn)
  simp only [scaleTarget, mulUint32_eq h32 hov hx hn, mulUint32_eq h32 hov hx (le_trans hmn hn)]
  split <;> split <;> omega

theorem scaleTarget_timespan {x : Nat} (hx : x ≤ params.powLimit) :
    scaleTarget params x params.nPowTargetTimespan = x := by
  have hmul := mulUint32_eq h32 hov hx (n := params.nPowTargetTimespan) (by omega)
  simp only [scaleTarget, hmul, Nat.mul_div_cancel _ params.timespan_pos]
  rw [if_neg (by omega)]

/-- At a period boundary the check accepts the old target scaled by any
timespan between a quarter and four times the intended one. -/
theorem permitted_scaled {height old new n : Nat} (hm : params.fPowAllowMinDifficultyBlocks = false)
    (hh : height % params.difficultyAdjustmentInterval = 0) (hold : CompactBelowLimit params old)
    (hlo : params.nPowTargetTimespan / 4 ≤ n) (hhi : n ≤ params.nPowTargetTimespan * 4)
    (hnew : (setCompact new).target = compactRound (scaleTarget params (setCompact old).target n)) :
    permittedDifficultyTransition params height old new = true := by
  have hx := hold.target_le
  have hmin := compactRound_mono (scaleTarget_mono h32 hov hx hlo hhi)
  have hmax := compactRound_mono (scaleTarget_mono h32 hov hx hhi le_rfl)
  have hr : ∀ t : Int, (setCompact (getCompact (scaleTarget params (setCompact old).target t)
      false)).target = compactRound (scaleTarget params (setCompact old).target t) :=
    fun t => setCompact_getCompact_target (scaleTarget_le _ _ _)
  simp only [permittedDifficultyTransition, hm, hh, hr, Bool.false_eq_true, if_false, if_true]
  rw [if_neg (by omega), if_neg (by omega)]

theorem permitted_same {height old : Nat} (hm : params.fPowAllowMinDifficultyBlocks = false)
    (hold : CompactBelowLimit params old) :
    permittedDifficultyTransition params height old old = true := by
  by_cases hh : height % params.difficultyAdjustmentInterval = 0
  · apply permitted_scaled h32 hov hm hh hold (n := params.nPowTargetTimespan) (by omega) (by omega)
    rw [scaleTarget_timespan h32 hov hold.target_le, hold.round_target]
  · simp [permittedDifficultyTransition, hh]
end

variable {c : CBlockIndex} {gt : Nat}

theorem WorkChain.nBits_pinned (hc : WorkChain params gt params.powLimitBits c)
    (hp : params.fSoftLaunch = true ∧ c.nHeight ≤ params.nSoftLaunchHeight ∨
      params.fPowNoRetargeting = true) : c.nBits = params.powLimitBits := by
  cases hc with
  | genesis => rfl
  | @next pprev nTime nBits hpp hb =>
    rcases hp with hs | hr
    · simp only [nHeight_next] at hs
      simpa [getNextWorkRequired, hs] using hb.symm
    · simpa [getNextWorkRequired, hr] using hb.symm

variable (hm : params.fPowAllowMinDifficultyBlocks = false)

include hm in
theorem WorkChain.nBits_next_eq {t b : Nat} (hc : WorkChain params gt params.powLimitBits (.next c t b))
    (hn : (c.nHeight + 1) % params.difficultyAdjustmentInterval ≠ 0) : b = c.nBits := by
  cases hc with
  | next hp hb =>
    cases requiredBits_of_getNextWorkRequired hb with
    | soft hs hh => exact (hp.nBits_pinned (Or.inl ⟨hs, by omega⟩)).symm
    | noRetarget hr => exact (hp.nBits_pinned (Or.inr hr)).symm
    | minDifficulty hm' ht => simp [hm] at hm'
    | walkBack hm' ht hn => simp [hm] at hm'
    | same hm' hn => rfl
    | retarget hn' hf => exact False.elim (hn hn')

include hm in
theorem WorkChain.nBits_getAncestor {k : Nat} {a : CBlockIndex}
    (hc : WorkChain params gt params.powLimitBits c) (ha : c.getAncestor k = some a)
    (hk : ∀ j, k < j → j ≤ c.nHeight → j % params.difficultyAdjustmentInterval ≠ 0) :
    a.nBits = c.nBits := by
  induction hc with
  | genesis =>
    by_cases h0 : k = 0
    · simp only [getAncestor, h0, if_true, Option.some.injEq] at ha
      exact ha ▸ rfl
    · simp [getAncestor, h0] at ha
  | @next pprev nTime nBits hp hb ih =>
    by_cases he : k = pprev.nHeight + 1
    · simp only [getAncestor, he, if_true, Option.some.injEq] at ha
      exact ha ▸ rfl
    · simp only [getAncestor, he] at ha
      have hle : k ≤ pprev.nHeight := getAncestor_le ha
      have hprev := ih ha (fun j hj hj' => hk j hj (by simp only [nHeight_next]; omega))
      have hn := hk (pprev.nHeight + 1) (by omega) le_rfl
      simp [hprev, WorkChain.nBits_next_eq hm (.next hp hb) hn]

theorem mod_ne_zero_of_period {i h j : Nat} (hh : (h + 1) % i = 0) (hlo : h - (i - 1) < j)
    (hhi : j ≤ h) : j % i ≠ 0 := by
  intro hj
  have hd : i ∣ h + 1 - j :=
    Nat.dvd_sub (Nat.dvd_of_mod_eq_zero hh) (Nat.dvd_of_mod_eq_zero hj)
  have hle := Nat.le_of_dvd (by omega) hd
  omega

include hm in
theorem WorkChain.nBits_retargetBase {first : CBlockIndex} (hc : WorkChain params gt params.powLimitBits c)
    (hn : (c.nHeight + 1) % params.difficultyAdjustmentInterval = 0)
    (hf : firstOfPeriod c params = some first) : (retargetBase params first c).nBits = c.nBits := by
  unfold retargetBase
  split
  · exact hc.nBits_getAncestor hm hf (fun j hlo hhi => mod_ne_zero_of_period hn hlo hhi)
  · rfl

include hm in
theorem WorkChain.compactBelowLimit (hc : WorkChain params gt params.powLimitBits c) :
    CompactBelowLimit params c.nBits := by
  induction hc with
  | genesis => exact ⟨params.powLimit, le_rfl, rfl⟩
  | @next pprev nTime nBits hp hb ih =>
    cases requiredBits_of_getNextWorkRequired hb with
    | soft hs hh => exact ⟨params.powLimit, le_rfl, rfl⟩
    | noRetarget hr => exact ⟨params.powLimit, le_rfl, rfl⟩
    | minDifficulty hm' ht => simp [hm] at hm'
    | walkBack hm' ht hn => simp [hm] at hm'
    | same hm' hn => exact ih
    | retarget hn hf => exact ⟨_, scaleTarget_le _ _ _, rfl⟩

/-- Every step of a chain that carries the required difficulty passes the
headers-only check, when four timespans fit in 32 bits. -/
theorem workChain_permitted {params : Params} {gt t b : Nat} {c : CBlockIndex}
    (hm : params.fPowAllowMinDifficultyBlocks = false)
    (hov : params.powLimit * 4 * params.nPowTargetTimespan < 2 ^ 256)
    (h32 : params.nPowTargetTimespan * 4 < 2 ^ 32)
    (hc : WorkChain params gt (getCompact params.powLimit false) (.next c t b)) :
    permittedDifficultyTransition params (c.nHeight + 1) c.nBits b = true := by
  have hconst := hc.nBits_next_eq hm
  cases hc with
  | next hp hb =>
    have hold := WorkChain.compactBelowLimit hm hp
    by_cases hh : (c.nHeight + 1) % params.difficultyAdjustmentInterval = 0
    · cases requiredBits_of_getNextWorkRequired hb with
      | soft hs hh =>
        have hpin := WorkChain.nBits_pinned hp (Or.inl ⟨hs, by omega⟩)
        simpa only [hpin] using permitted_same h32 hov hm hold
      | noRetarget hr =>
        have hpin := WorkChain.nBits_pinned hp (Or.inr hr)
        simpa only [hpin] using permitted_same h32 hov hm hold
      | minDifficulty hm' ht => simp [hm] at hm'
      | walkBack hm' ht hn => simp [hm] at hm'
      | same hm' hn => exact False.elim (hn hh)
      | @retarget first _ hf =>
        obtain ⟨n, hclamp, hlo, hhi⟩ :=
          clampTimespan_spec params (c.getBlockTime - first.getBlockTime)
        rw [hclamp, WorkChain.nBits_retargetBase hm hp hh hf]
        exact permitted_scaled h32 hov hm hh hold hlo hhi
          (setCompact_getCompact_target (scaleTarget_le _ _ _))
    · rw [hconst hh]
      exact permitted_same h32 hov hm hold

/-- Blocks at the easiest difficulty, all at the same time. -/
def instantChain : Nat → CBlockIndex
  | 0 => .genesis 0 (getCompact (consensusParams .main).powLimit false)
  | height + 1 => .next (instantChain height) 0 (getCompact (consensusParams .main).powLimit false)

theorem instantChain_nHeight (height : Nat) : (instantChain height).nHeight = height := by
  induction height with
  | zero => rfl
  | succ height ih => rw [instantChain, nHeight_next, ih]

theorem instantChain_work {height : Nat} (hh : height ≤ softLaunchHeight + 1) : WorkChain (consensusParams .main) 0
    (getCompact (consensusParams .main).powLimit false) (instantChain height) := by
  induction height with
  | zero => exact .genesis
  | succ height ih =>
    refine .next (ih (by omega)) ?_
    rw [getNextWorkRequired, instantChain_nHeight]
    by_cases hsoft : height + 1 ≤ softLaunchHeight
    · rw [if_pos ⟨rfl, hsoft⟩]
      rfl
    · obtain rfl : height = 10000 := by
        rw [softLaunchHeight] at hh hsoft
        omega
      rfl

/-- The first retarget of the main network, after blocks without any time between them,
makes the target four times smaller. -/
theorem workChain_permitted_mainnet :
    WorkChain (consensusParams .main) 0 (getCompact (consensusParams .main).powLimit false)
        (.next (instantChain 10001) 0 0x1e03fffc) ∧
      (instantChain 10001).nBits = 0x1e0ffff0 ∧
      permittedDifficultyTransition (consensusParams .main) ((instantChain 10001).nHeight + 1)
        (instantChain 10001).nBits 0x1e03fffc = true := by
  have hb : getNextWorkRequired (instantChain 10001) 0 (consensusParams .main) = some 0x1e03fffc := by
    decide +kernel
  have hc := (instantChain_work (Nat.le_refl _)).next hb
  exact ⟨hc, by decide +kernel, workChain_permitted rfl (by decide) (by decide) hc⟩

/-- A timespan whose fourfold is zero modulo 32 bits. -/
def longTimespanParams : Params :=
  { powLimit := 2 ^ 223
    fPowAllowMinDifficultyBlocks := false
    enforceBIP94 := false
    fPowNoRetargeting := false
    nPowTargetSpacing := 2 ^ 30
    nPowTargetTimespan := 2 ^ 30
    fSoftLaunch := false
    nSoftLaunchHeight := 0
    powLimit_lt := by norm_num
    spacing_pos := by norm_num
    spacing_le := by norm_num
    timespan_lt := by norm_num }

theorem longTimespan_not_permitted : ¬ ∀ (params : Params) (gt t b : Nat) (c : CBlockIndex),
      params.fPowAllowMinDifficultyBlocks = false →
      params.powLimit * 4 * params.nPowTargetTimespan < 2 ^ 256 →
      WorkChain params gt (getCompact params.powLimit false) (.next c t b) →
        permittedDifficultyTransition params (c.nHeight + 1) c.nBits b = true := by
  intro h
  have hb : getNextWorkRequired (.genesis 0 0x1d008000) 0 longTimespanParams = some 0x1c200000 := by
    decide +kernel
  have hg : getCompact longTimespanParams.powLimit false = 0x1d008000 := by decide +kernel
  have hc : WorkChain longTimespanParams 0 (getCompact longTimespanParams.powLimit false)
      (.next (.genesis 0 0x1d008000) 0 0x1c200000) := by
    rw [hg]
    exact .next .genesis hb
  have hp := h longTimespanParams 0 0 0x1c200000 _ rfl (by decide) hc
  revert hp
  decide +kernel

end Byze
