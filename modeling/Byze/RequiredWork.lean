import Byze.ChainParams

/-! Which required difficulties decode to a usable target, on chains grown
from any genesis block and then on the networks that are defined. -/

namespace Byze

def WithinLimit (params : Params) (nBits : Nat) : Prop :=
  (setCompact nBits).negative = false ∧ (setCompact nBits).overflow = false ∧
    (setCompact nBits).target ≤ params.powLimit

instance (params : Params) (nBits : Nat) : Decidable (WithinLimit params nBits) := by
  unfold WithinLimit
  infer_instance

variable {params : Params} {c : CBlockIndex}

theorem withinLimit_getCompact {x : Nat} (hx : x ≤ params.powLimit) :
    WithinLimit params (getCompact x false) := by
  have hlt : x < 2 ^ 256 := lt_of_le_of_lt hx params.powLimit_lt
  unfold WithinLimit
  rw [setCompact_getCompact hlt]
  exact ⟨rfl, rfl, le_trans (compactRound_le x) hx⟩

theorem withinLimit_powLimitBits (params : Params) : WithinLimit params params.powLimitBits :=
  withinLimit_getCompact le_rfl

theorem scaleTarget_le (params : Params) (target : Nat) (timespan : Int) :
    scaleTarget params target timespan ≤ params.powLimit := by
  simp only [scaleTarget]
  split
  · exact le_rfl
  · omega

theorem firstOfPeriod_isSome (c : CBlockIndex) (params : Params) : ∃ a, firstOfPeriod c params = some a :=
  CBlockIndex.getAncestor_isSome (Nat.sub_le _ _)

def retargetBase (params : Params) (first c : CBlockIndex) : CBlockIndex :=
  if params.enforceBIP94 then first else c

theorem calculateNextWorkRequired_eq {c first : CBlockIndex} {t : Int}
    (hf : firstOfPeriod c params = some first) :
    calculateNextWorkRequired c t params =
      some (getCompact (scaleTarget params (setCompact (retargetBase params first c).nBits).target
        (clampTimespan params (c.getBlockTime - t))) false) := by
  cases hb : params.enforceBIP94 with
  | false => simp [calculateNextWorkRequired, retargetBase, hb]
  | true => simp [calculateNextWorkRequired, retargetBase, hb, hf]

inductive RequiredBits (params : Params) (c : CBlockIndex) (t : Nat) : Nat → Prop where
  | soft (hs : params.fSoftLaunch = true) (hh : c.nHeight + 1 ≤ params.nSoftLaunchHeight) :
      RequiredBits params c t params.powLimitBits
  | noRetarget (hr : params.fPowNoRetargeting = true) : RequiredBits params c t params.powLimitBits
  | minDifficulty (hm : params.fPowAllowMinDifficultyBlocks = true)
      (ht : t > c.getBlockTime + params.nPowTargetSpacing * 2) :
      RequiredBits params c t params.powLimitBits
  | walkBack (hm : params.fPowAllowMinDifficultyBlocks = true)
      (ht : ¬ t > c.getBlockTime + params.nPowTargetSpacing * 2)
      (hn : (c.nHeight + 1) % params.difficultyAdjustmentInterval ≠ 0) :
      RequiredBits params c t (c.lastNonMinDifficulty params).nBits
  | same (hm : params.fPowAllowMinDifficultyBlocks = false)
      (hn : (c.nHeight + 1) % params.difficultyAdjustmentInterval ≠ 0) :
      RequiredBits params c t c.nBits
  | retarget {first : CBlockIndex}
      (hn : (c.nHeight + 1) % params.difficultyAdjustmentInterval = 0)
      (hf : firstOfPeriod c params = some first) :
      RequiredBits params c t
        (getCompact (scaleTarget params (setCompact (retargetBase params first c).nBits).target
          (clampTimespan params (c.getBlockTime - first.getBlockTime))) false)

theorem interval_le_of_mod {n : Nat} (hn : 0 < n) (h : n % params.difficultyAdjustmentInterval = 0)
    : params.difficultyAdjustmentInterval ≤ n :=
  Nat.le_of_dvd hn (Nat.dvd_of_mod_eq_zero h)

structure EndsPeriod (params : Params) (c : CBlockIndex) : Prop where
  launched : ¬ (params.fSoftLaunch = true ∧ c.nHeight + 1 ≤ params.nSoftLaunchHeight)
  retargets : params.fPowNoRetargeting = false
  last : (c.nHeight + 1) % params.difficultyAdjustmentInterval = 0

theorem EndsPeriod.getNextWorkRequired_eq {c first : CBlockIndex} {t : Nat} (h : EndsPeriod params c)
    (hf : firstOfPeriod c params = some first) :
    getNextWorkRequired c t params =
      some (getCompact (scaleTarget params (setCompact (retargetBase params first c).nBits).target
        (clampTimespan params (c.getBlockTime - first.getBlockTime))) false) := by
  have hle := interval_le_of_mod (Nat.succ_pos _) h.last
  have hlt : ¬ c.nHeight < params.difficultyAdjustmentInterval - 1 := by omega
  rw [getNextWorkRequired]
  simp only [if_neg h.launched, h.retargets, h.last, hlt, hf, calculateNextWorkRequired_eq hf,
    Bool.false_eq_true, if_false, ne_eq, not_true_eq_false, Option.bind_eq_bind, Option.bind_some]

theorem getNextWorkRequired_spec (c : CBlockIndex) (t : Nat) (params : Params) :
    ∃ b, getNextWorkRequired c t params = some b ∧ RequiredBits params c t b := by
  unfold getNextWorkRequired
  by_cases hs : params.fSoftLaunch = true ∧ c.nHeight + 1 ≤ params.nSoftLaunchHeight
  · exact ⟨_, by simp [hs], .soft hs.1 hs.2⟩
  rw [if_neg hs]
  by_cases hr : params.fPowNoRetargeting = true
  · exact ⟨_, by simp [hr], .noRetarget hr⟩
  rw [if_neg hr]
  by_cases hn : (c.nHeight + 1) % params.difficultyAdjustmentInterval = 0
  · obtain ⟨first, hf⟩ := firstOfPeriod_isSome c params
    have hle := interval_le_of_mod (Nat.succ_pos _) hn
    have hlt : ¬ c.nHeight < params.difficultyAdjustmentInterval - 1 := by omega
    exact ⟨_, by simp [hn, hlt, hf, calculateNextWorkRequired_eq hf], .retarget hn hf⟩
  cases hm : params.fPowAllowMinDifficultyBlocks with
  | false => exact ⟨_, by simp [hn], .same hm hn⟩
  | true =>
    by_cases ht : t > c.getBlockTime + params.nPowTargetSpacing * 2
    · exact ⟨_, by simp [hn, ht], .minDifficulty hm ht⟩
    · exact ⟨_, by simp [hn, ht], .walkBack hm ht hn⟩

theorem requiredBits_of_getNextWorkRequired {t b : Nat}
    (h : getNextWorkRequired c t params = some b) : RequiredBits params c t b := by
  obtain ⟨b', hb', hr⟩ := getNextWorkRequired_spec c t params
  have he : b' = b := by simpa [h] using hb'.symm
  rwa [he] at hr

/-- Some rule of the parameters can put the limit in place of the difficulty. -/
def LimitRule (params : Params) : Prop :=
  params.fSoftLaunch = true ∨ params.fPowNoRetargeting = true ∨ params.fPowAllowMinDifficultyBlocks = true

theorem WorkChain.nBits_first_period {gt gb : Nat} (hc : WorkChain params gt gb c)
    (hh : c.nHeight < params.difficultyAdjustmentInterval) :
    (c.nBits = gb ∨ c.nBits = params.powLimitBits ∧ LimitRule params) ∧
      (c.lastNonMinDifficulty params).nBits = gb := by
  induction hc with
  | genesis => exact ⟨Or.inl rfl, rfl⟩
  | @next pprev nTime nBits hp hb ih =>
    simp only [CBlockIndex.nHeight_next] at hh
    obtain ⟨hbits, hwalk⟩ := ih (by omega)
    have hmod : (pprev.nHeight + 1) % params.difficultyAdjustmentInterval ≠ 0 := by
      rw [Nat.mod_eq_of_lt hh]
      omega
    have hn : nBits = gb ∨ nBits = params.powLimitBits ∧ LimitRule params := by
      cases requiredBits_of_getNextWorkRequired hb with
      | soft hs hh => exact Or.inr ⟨rfl, Or.inl hs⟩
      | noRetarget hr => exact Or.inr ⟨rfl, Or.inr (Or.inl hr)⟩
      | minDifficulty hm ht => exact Or.inr ⟨rfl, Or.inr (Or.inr hm)⟩
      | walkBack hm ht hn => exact Or.inl hwalk
      | same hm hn => exact hbits
      | retarget hn hf => exact False.elim (hmod hn)
    refine ⟨hn, ?_⟩
    by_cases he : nBits = params.powLimitBits
    · simpa [CBlockIndex.lastNonMinDifficulty, hmod, he] using hwalk
    · rcases hn with hn | hn
      · simpa [CBlockIndex.lastNonMinDifficulty, he] using hn
      · exact False.elim (he hn.1)

theorem RequiredBits.withinLimit {t b : Nat} (h : RequiredBits params c t b)
    (hc : (c.nHeight + 1) % params.difficultyAdjustmentInterval ≠ 0 →
      WithinLimit params c.nBits ∧ WithinLimit params (c.lastNonMinDifficulty params).nBits) :
    WithinLimit params b := by
  cases h with
  | soft hs hh => exact withinLimit_powLimitBits params
  | noRetarget hr => exact withinLimit_powLimitBits params
  | minDifficulty hm ht => exact withinLimit_powLimitBits params
  | walkBack hm ht hn => exact (hc hn).2
  | same hm hn => exact (hc hn).1
  | retarget hn hf => exact withinLimit_getCompact (scaleTarget_le _ _ _)

theorem WorkChain.withinLimit_later {gt gb : Nat} (hc : WorkChain params gt gb c)
    (hh : params.difficultyAdjustmentInterval ≤ c.nHeight) :
    WithinLimit params c.nBits ∧ WithinLimit params (c.lastNonMinDifficulty params).nBits := by
  induction hc with
  | genesis =>
    have := params.interval_pos
    simp only [CBlockIndex.nHeight_genesis] at hh
    omega
  | @next pprev nTime nBits hp hb ih =>
    simp only [CBlockIndex.nHeight_next] at hh
    have hpre : (pprev.nHeight + 1) % params.difficultyAdjustmentInterval ≠ 0 →
        params.difficultyAdjustmentInterval ≤ pprev.nHeight := by
      intro hmod
      by_contra hcon
      have he : pprev.nHeight + 1 = params.difficultyAdjustmentInterval := by omega
      rw [he, Nat.mod_self] at hmod
      exact hmod rfl
    have hn : WithinLimit params nBits :=
      (requiredBits_of_getNextWorkRequired hb).withinLimit (fun hmod => ih (hpre hmod))
    refine ⟨hn, ?_⟩
    by_cases he : (pprev.nHeight + 1) % params.difficultyAdjustmentInterval ≠ 0 ∧ nBits = params.powLimitBits
    · simpa only [CBlockIndex.lastNonMinDifficulty, if_pos he] using (ih (hpre he.1)).2
    · rw [CBlockIndex.lastNonMinDifficulty, if_neg he]
      exact hn

theorem WorkChain.required_first_period {gt gb t b : Nat} (hc : WorkChain params gt gb c)
    (hh : c.nHeight + 1 < params.difficultyAdjustmentInterval)
    (hb : getNextWorkRequired c t params = some b) (hs : params.fSoftLaunch = false)
    (hr : params.fPowNoRetargeting = false)
    (ht : params.fPowAllowMinDifficultyBlocks = true → t ≤ c.getBlockTime + params.nPowTargetSpacing * 2) :
    b = gb := by
  obtain ⟨hbits, hwalk⟩ := hc.nBits_first_period (by omega)
  cases requiredBits_of_getNextWorkRequired hb with
  | soft hs' hh => simp [hs] at hs'
  | noRetarget hr' => simp [hr] at hr'
  | minDifficulty hm ht' => exact False.elim (absurd (ht hm) (by omega))
  | walkBack hm ht hn => exact hwalk
  | same hm hn =>
    rcases hbits with hb | ⟨-, hl | hl | hl⟩
    · exact hb
    · simp [hs] at hl
    · simp [hr] at hl
    · simp [hm] at hl
  | retarget hn hf =>
    rw [Nat.mod_eq_of_lt hh] at hn
    omega

theorem WorkChain.withinLimit_required_iff {gt gb t b : Nat} (hc : WorkChain params gt gb c)
    (hb : getNextWorkRequired c t params = some b)
    (hrule : WithinLimit params gb ∨ params.fSoftLaunch = false ∧ params.fPowNoRetargeting = false) :
    WithinLimit params b ↔ WithinLimit params gb ∨ params.difficultyAdjustmentInterval ≤ c.nHeight + 1 ∨
        params.fPowAllowMinDifficultyBlocks = true ∧ t > c.getBlockTime + params.nPowTargetSpacing * 2 := by
  have hreq := requiredBits_of_getNextWorkRequired hb
  constructor
  · intro hw
    by_contra hcon
    push Not at hcon
    obtain ⟨hg, hh, ht⟩ := hcon
    obtain ⟨hs, hr⟩ := hrule.resolve_left hg
    have he := hc.required_first_period hh hb hs hr ht
    exact hg (he ▸ hw)
  · rintro (hg | hh | ⟨hm, ht⟩)
    · apply hreq.withinLimit
      intro hn
      by_cases hp : c.nHeight < params.difficultyAdjustmentInterval
      · obtain ⟨hbits, hwalk⟩ := hc.nBits_first_period hp
        refine ⟨?_, hwalk ▸ hg⟩
        rcases hbits with h | ⟨h, -⟩
        · exact h ▸ hg
        · exact h ▸ withinLimit_powLimitBits params
      · exact hc.withinLimit_later (by omega)
    · exact (WorkChain.withinLimit_later (.next hc hb) hh).1
    · cases hreq with
      | soft hs hh => exact withinLimit_powLimitBits params
      | noRetarget hr => exact withinLimit_powLimitBits params
      | minDifficulty hm ht => exact withinLimit_powLimitBits params
      | walkBack hm ht' hn => exact False.elim (ht' ht)
      | same hm' hn => simp [hm] at hm'
      | retarget hn hf => exact withinLimit_getCompact (scaleTarget_le _ _ _)

abbrev NetworkChain (net : ChainType) (c : CBlockIndex) : Prop :=
  WorkChain (consensusParams net) (genesisTime net) (genesisBits net) c

theorem withinLimit_genesisBits_iff (net : ChainType) :
    WithinLimit (consensusParams net) (genesisBits net) ↔ net = .main ∨ ∃ e, net = .regtest e := by
  cases net with
  | regtest e => cases e <;> decide
  | _ => simp; decide

theorem consensusParams_of_genesis_above {net : ChainType}
    (h : ¬ WithinLimit (consensusParams net) (genesisBits net)) :
    (consensusParams net).fSoftLaunch = false ∧ (consensusParams net).fPowNoRetargeting = false ∧
      (consensusParams net).difficultyAdjustmentInterval = 2016 ∧
      ((consensusParams net).fPowAllowMinDifficultyBlocks = true ↔ net = .testnet ∨ net = .testnet4) := by
  rw [withinLimit_genesisBits_iff] at h
  cases net with
  | main => simp at h
  | testnet => exact ⟨rfl, rfl, rfl, by simp [consensusParams, twoWeekParams]⟩
  | testnet4 => exact ⟨rfl, rfl, rfl, by simp [consensusParams, twoWeekParams]⟩
  | stagenet => exact ⟨rfl, rfl, rfl, by simp [consensusParams, twoWeekParams]⟩
  | signet => exact ⟨rfl, rfl, rfl, by simp [consensusParams, twoWeekParams]⟩
  | regtest e => simp at h

theorem consensusParams_spacing (net : ChainType) : (consensusParams net).nPowTargetSpacing = 600 := by
  cases net <;> rfl

theorem deriveTarget_eq_none_iff {b : Nat} (hb : WithinLimit params b) :
    deriveTarget b params.powLimit = none ↔ (setCompact b).target = 0 := by
  obtain ⟨hn, ho, hl⟩ := hb
  simp [deriveTarget, hn, ho, hl]

/-- On every network the required difficulty exists. It is usable on the
networks whose genesis difficulty is below the limit, and elsewhere once the
first retarget has capped it or a late block asks for minimum difficulty. -/
theorem network_required_withinLimit_iff {net : ChainType} {c : CBlockIndex} (t : Nat)
    (hc : NetworkChain net c) :
    ∃ b, getNextWorkRequired c t (consensusParams net) = some b ∧ ((WithinLimit (consensusParams net) b ∧
          (deriveTarget b (consensusParams net).powLimit = none → (setCompact b).target = 0)) ↔
        net = .main ∨ (∃ e, net = .regtest e) ∨ 2016 ≤ c.nHeight + 1 ∨
          (net = .testnet ∨ net = .testnet4) ∧ t > c.getBlockTime + 1200) := by
  obtain ⟨b, hb, -⟩ := getNextWorkRequired_spec c t (consensusParams net)
  refine ⟨b, hb, ?_⟩
  have hd : (WithinLimit (consensusParams net) b ∧
      (deriveTarget b (consensusParams net).powLimit = none → (setCompact b).target = 0)) ↔
      WithinLimit (consensusParams net) b :=
    ⟨And.left, fun hw => ⟨hw, (deriveTarget_eq_none_iff hw).mp⟩⟩
  have hnet := withinLimit_genesisBits_iff net
  by_cases hg : WithinLimit (consensusParams net) (genesisBits net)
  · have hw := (hc.withinLimit_required_iff hb (Or.inl hg)).mpr (Or.inl hg)
    rcases hnet.mp hg with h | h
    · exact ⟨fun _ => Or.inl h, fun _ => hd.mpr hw⟩
    · exact ⟨fun _ => Or.inr (Or.inl h), fun _ => hd.mpr hw⟩
  · obtain ⟨hs, hr, hi, hm⟩ := consensusParams_of_genesis_above hg
    rw [hd, hc.withinLimit_required_iff hb (Or.inr ⟨hs, hr⟩), hi, hm, consensusParams_spacing, hnet, or_assoc]

/-- Half an hour after the testnet genesis the block of minimum difficulty is asked for. -/
theorem network_required_withinLimit_testnet : NetworkChain .testnet (.genesis 1777342551 0x1e0ffff0) ∧
    ∃ b, getNextWorkRequired (.genesis 1777342551 0x1e0ffff0) 1777344351 (consensusParams .testnet) = some b ∧
      WithinLimit (consensusParams .testnet) b := by
  refine ⟨.genesis, ?_⟩
  obtain ⟨b, hb, hiff⟩ := @network_required_withinLimit_iff .testnet _ 1777344351 .genesis
  have hlate : 1777344351 > (CBlockIndex.genesis 1777342551 0x1e0ffff0).getBlockTime + 1200 := by decide
  exact ⟨b, hb, (hiff.mpr (Or.inr (Or.inr (Or.inr ⟨Or.inl rfl, hlate⟩)))).1⟩

theorem testnet_first_required_above_limit :
    ¬ ∀ (net : ChainType) (c : CBlockIndex) (t b : Nat), NetworkChain net c →
      getNextWorkRequired c t (consensusParams net) = some b → WithinLimit (consensusParams net) b := by
  intro h
  have hb : getNextWorkRequired (.genesis 1777342551 0x1e0ffff0) 1777343151
      (consensusParams .testnet) = some 0x1e0ffff0 := by decide
  have hw := h .testnet _ _ _ .genesis hb
  revert hw
  decide

end Byze
