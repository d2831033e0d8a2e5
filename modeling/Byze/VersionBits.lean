import Byze.NextWork
import Byze.SkipList

/-! The states of a version bits deployment. They are computed period by period
and remembered in a cache; what the cache holds never changes an answer. -/

namespace Byze
open Ancestry

inductive ThresholdState
  | defined
  | started
  | lockedIn
  | active
  | failed
  deriving DecidableEq

structure ConditionChecker where
  condition : Nat → Bool
  beginTime : Int
  endTime : Int
  minActivationHeight : Int
  period : Nat
  threshold : Int

def alwaysActive : Int := -1
def neverActive : Int := -2

/-- Keyed by the block before a period, with the null pointer before the first one. -/
abbrev ThresholdConditionCache := Option Nat → Option ThresholdState

namespace ThresholdConditionCache

def empty : ThresholdConditionCache := fun _ => none

def set (cache : ThresholdConditionCache) (pindex : Option Nat) (state : ThresholdState) :
    ThresholdConditionCache := fun p => if p = pindex then some state else cache p

end ThresholdConditionCache

structure TimedMap where
  map : BlockMap
  blockTime : Nat → Nat

namespace TimedMap

def lastTimes (t : TimedMap) : Nat → Option Nat → List Nat
  | n + 1, some pindex => t.blockTime pindex :: t.lastTimes n (t.map.pprev pindex)
  | _, _ => []

def getMedianTimePast (t : TimedMap) (pindex : Nat) : Int :=
  medianTime (t.lastTimes medianTimeSpan (some pindex))

/-- The block at a position of the map, with those before it, is a chain. -/
inductive Holds (t : TimedMap) : Nat → CBlockIndex → Prop
  | genesis {b nBits : Nat} (hb : t.map.pprev b = none) : Holds t b (.genesis (t.blockTime b) nBits)
  | next {b p nBits : Nat} {chain : CBlockIndex} (hb : t.map.pprev b = some p) (hp : Holds t p chain) :
    Holds t b (.next chain (t.blockTime b) nBits)

def MedianTimeGrows (t : TimedMap) : Prop :=
  ∀ b p, t.map.pprev b = some p → t.getMedianTimePast p ≤ t.getMedianTimePast b

theorem Holds.lastTimes_eq {t : TimedMap} {b : Nat} {chain : CBlockIndex} (h : t.Holds b chain) (n : Nat) :
    t.lastTimes n (some b) = chain.lastTimes n := by
  induction h generalizing n with
  | genesis hb => cases n <;> simp [lastTimes, CBlockIndex.lastTimes, hb]
  | next hb hp ih => cases n <;> simp [lastTimes, CBlockIndex.lastTimes, hb, ih]

theorem Holds.getMedianTimePast_eq {t : TimedMap} {b : Nat} {chain : CBlockIndex} (h : t.Holds b chain) :
    t.getMedianTimePast b = chain.getMedianTimePast := by
  rw [getMedianTimePast, h.lastTimes_eq, CBlockIndex.getMedianTimePast]

end TimedMap

namespace ConditionChecker
variable (t : TimedMap) (c : ConditionChecker)

/-- The blocks of a period that signal. A null pointer must not be reached. -/
def countSignals : Nat → Option Nat → Option Nat
  | 0, _ => some 0
  | _ + 1, none => none
  | n + 1, some pindexCount =>
    (countSignals n (t.map.pprev pindexCount)).map (· + if c.condition pindexCount then 1 else 0)

def stateNext (state : ThresholdState) (pindexPrev : Nat) : Option ThresholdState :=
  match state with
  | .defined => some (if c.beginTime ≤ t.getMedianTimePast pindexPrev then .started else .defined)
  | .started => (c.countSignals t c.period (some pindexPrev)).map fun (count : Nat) =>
      if c.threshold ≤ count then .lockedIn
      else if c.endTime ≤ t.getMedianTimePast pindexPrev then .failed
      else .started
  | .lockedIn => some (if c.minActivationHeight ≤ t.map.nHeight pindexPrev + 1 then .active else .lockedIn)
  | .failed => some .failed
  | .active => some .active

def walkBack : Nat → Option Nat → ThresholdConditionCache → List Nat →
    Option (Option Nat × ThresholdConditionCache × List Nat)
  | 0, _, _, _ => none
  | fuel + 1, pindexPrev, cache, vToCompute =>
    if (cache pindexPrev).isSome then some (pindexPrev, cache, vToCompute)
    else match pindexPrev with
      | none => some (none, cache.set none .defined, vToCompute)
      | some b =>
        if t.getMedianTimePast b < c.beginTime then some (some b, cache.set (some b) .defined, vToCompute)
        else (t.map.getAncestor b (t.map.nHeight b - c.period)).bind fun pindexPrev =>
          walkBack fuel pindexPrev cache (b :: vToCompute)

def walkForward : ThresholdState → ThresholdConditionCache → List Nat →
    Option (ThresholdState × ThresholdConditionCache)
  | state, cache, [] => some (state, cache)
  | state, cache, pindexPrev :: vToCompute =>
    (c.stateNext t state pindexPrev).bind fun stateNext =>
      walkForward stateNext (cache.set (some pindexPrev) stateNext) vToCompute

def periodParent (pindexPrev : Option Nat) : Option (Option Nat) :=
  match pindexPrev with
  | none => some none
  | some b => t.map.getAncestor b (t.map.nHeight b - ((t.map.nHeight b + 1) % c.period : Nat))

def walkFuel (pindexPrev : Option Nat) : Nat := pindexPrev.elim 0 t.map.nHeight + 2

/-- `none` is a failed assertion or a null pointer that is followed. -/
def getStateFor (pindexPrev : Option Nat) (cache : ThresholdConditionCache) :
    Option (ThresholdState × ThresholdConditionCache) :=
  if c.beginTime = alwaysActive then some (.active, cache)
  else if c.beginTime = neverActive then some (.failed, cache)
  else
    (c.periodParent t pindexPrev).bind fun pindexPrev =>
      (c.walkBack t (walkFuel t pindexPrev) pindexPrev cache []).bind fun found =>
        (found.2.1 found.1).bind fun state => c.walkForward t state found.2.1 found.2.2

def sinceLoop (initialState : ThresholdState) : Nat → Nat → Option Nat → ThresholdConditionCache →
    Option (Int × ThresholdConditionCache)
  | 0, _, _, _ => none
  | _ + 1, pindexPrev, none, cache => some (t.map.nHeight pindexPrev + 1, cache)
  | fuel + 1, pindexPrev, some previousPeriodParent, cache =>
    (c.getStateFor t (some previousPeriodParent) cache).bind fun r =>
      if r.1 = initialState then
        (t.map.getAncestor previousPeriodParent (t.map.nHeight previousPeriodParent - c.period)).bind fun next =>
          sinceLoop initialState fuel previousPeriodParent next r.2
      else some (t.map.nHeight pindexPrev + 1, r.2)

def getStateSinceHeightFor (pindexPrev : Option Nat) (cache : ThresholdConditionCache) :
    Option (Int × ThresholdConditionCache) :=
  if c.beginTime = alwaysActive ∨ c.beginTime = neverActive then some (0, cache)
  else
    (c.getStateFor t pindexPrev cache).bind fun r =>
      if r.1 = .defined then some (0, r.2)
      else
        (c.periodParent t pindexPrev).join.bind fun pindexPrev =>
          (t.map.getAncestor pindexPrev (t.map.nHeight pindexPrev - c.period)).bind fun previousPeriodParent =>
            c.sinceLoop t r.1 (t.map.nHeight pindexPrev + 1) pindexPrev previousPeriodParent r.2

/-- Caches filled by queries for any blocks, in any order. -/
inductive Queried : ThresholdConditionCache → Prop
  | empty : Queried ThresholdConditionCache.empty
  | state {cache cache' : ThresholdConditionCache} {pindexPrev : Option Nat} {s : ThresholdState}
      (hcache : Queried cache) (hrun : c.getStateFor t pindexPrev cache = some (s, cache')) : Queried cache'
  | since {cache cache' : ThresholdConditionCache} {pindexPrev : Option Nat} {height : Int}
      (hcache : Queried cache) (hrun : c.getStateSinceHeightFor t pindexPrev cache = some (height, cache')) :
      Queried cache'

/-! The states without a cache. -/

def signals (b : Nat) : Nat := (List.range c.period).countP fun i => (back t.map.pprev i b).any c.condition

def periodStep (state : ThresholdState) (b : Nat) : ThresholdState :=
  match state with
  | .defined => if c.beginTime ≤ t.getMedianTimePast b then .started else .defined
  | .started => if c.threshold ≤ c.signals t b then .lockedIn
      else if c.endTime ≤ t.getMedianTimePast b then .failed
      else .started
  | .lockedIn => if c.minActivationHeight ≤ t.map.nHeight b + 1 then .active else .lockedIn
  | .failed => .failed
  | .active => .active

/-- The state of the `k`-th period on the branch that ends with `b`, from the
first period on. -/
def branchState (b : Nat) : Nat → ThresholdState
  | 0 => .defined
  | k + 1 => (back t.map.pprev (t.map.nHeight b + 1 - c.period * (k + 1)) b).elim (branchState b k)
      (c.periodStep t (branchState b k))

def recursiveState (pindexPrev : Option Nat) : ThresholdState :=
  pindexPrev.elim .defined fun b => c.branchState t b ((t.map.nHeight b + 1) / c.period)

def stateWithoutCache (pindexPrev : Option Nat) : ThresholdState :=
  if c.beginTime = alwaysActive then .active
  else if c.beginTime = neverActive then .failed
  else c.recursiveState t pindexPrev

def nextHeight (pindexPrev : Option Nat) : Nat := pindexPrev.elim 0 fun b => t.map.nHeight b + 1

def stateAtHeight (pindexPrev : Option Nat) (height : Nat) : ThresholdState :=
  c.stateWithoutCache t (pindexPrev.bind (back t.map.pprev (nextHeight t pindexPrev - height)))

/-- From `height` to the block after `pindexPrev` the state stays the same, and
before that it was another one. -/
def IsRunStart (pindexPrev : Option Nat) (height : Nat) : Prop :=
  height ≤ nextHeight t pindexPrev ∧ (∀ k, height ≤ k → k ≤ nextHeight t pindexPrev →
      c.stateAtHeight t pindexPrev k = c.stateWithoutCache t pindexPrev) ∧
    ∀ k, k + 1 = height → c.stateAtHeight t pindexPrev k ≠ c.stateWithoutCache t pindexPrev

end ConditionChecker

inductive ThresholdState.Moves : ThresholdState → ThresholdState → Prop
  | start : Moves .defined .started
  | lockIn : Moves .started .lockedIn
  | activate : Moves .lockedIn .active
  | fail : Moves .started .failed

theorem back_eq_none {m : BlockMap} (hm : m.Linked) {n b : Nat} (h : m.nHeight b < n) : back m.pprev n b = none := by
  cases hb : back m.pprev n b with
  | none => rfl
  | some a =>
    have hrank := hm.ranked.height_back hb
    omega

theorem getAncestor_sub {m : BlockMap} (hm : m.Linked) (b n : Nat) :
    m.getAncestor b (m.nHeight b - n) = some (back m.pprev n b) := by
  by_cases hn : n ≤ m.nHeight b
  · obtain ⟨a, ha, hback, -⟩ := hm.getAncestor_eq (Nat.sub_le (m.nHeight b) n)
    rw [Nat.sub_sub_self hn] at hback
    rw [← Int.ofNat_sub hn, hback]
    exact ha
  · have hneg : (m.nHeight b : Int) < m.nHeight b - n ∨ (m.nHeight b : Int) - n < 0 := by omega
    rw [BlockMap.getAncestor, if_pos hneg, back_eq_none hm (by omega)]

theorem TimedMap.MedianTimeGrows.back_le {t : TimedMap} (h : t.MedianTimeGrows) {n a b : Nat}
    (hn : back t.map.pprev n b = some a) : t.getMedianTimePast a ≤ t.getMedianTimePast b := by
  induction n generalizing b with
  | zero =>
    obtain rfl := Option.some.inj hn
    exact Int.le_refl _
  | succ n ih =>
    obtain ⟨p, hp, hn⟩ := Option.bind_eq_some_iff.mp hn
    exact Int.le_trans (ih hn) (h b p hp)

namespace ConditionChecker
variable {t : TimedMap} {c : ConditionChecker}

theorem periodStep_moves (state : ThresholdState) (b : Nat) :
    c.periodStep t state b = state ∨ state.Moves (c.periodStep t state b) := by
  cases state with
  | defined =>
    rw [periodStep]
    split
    · exact Or.inr .start
    · exact Or.inl rfl
  | started =>
    rw [periodStep]
    split
    · exact Or.inr .lockIn
    · split
      · exact Or.inr .fail
      · exact Or.inl rfl
  | lockedIn =>
    rw [periodStep]
    split
    · exact Or.inr .activate
    · exact Or.inl rfl
  | active => exact Or.inl rfl
  | failed => exact Or.inl rfl

theorem eq_defined_of_periodStep {state : ThresholdState} {b : Nat} (h : c.periodStep t state b = .defined) :
    state = .defined := by
  rcases periodStep_moves (c := c) (t := t) state b with heq | hmove
  · rw [← heq, h]
  · rw [h] at hmove
    cases hmove

def Sound (t : TimedMap) (c : ConditionChecker) (cache : ThresholdConditionCache) : Prop :=
  ∀ p s, cache p = some s → s = c.recursiveState t p

theorem Sound.set {cache : ThresholdConditionCache} (h : c.Sound t cache) {p : Option Nat} {s : ThresholdState}
    (hs : s = c.recursiveState t p) : c.Sound t (cache.set p s) := by
  intro q s' hq
  by_cases hp : q = p
  · rw [ThresholdConditionCache.set, if_pos hp] at hq
    rw [← Option.some.inj hq, hs, hp]
  · rw [ThresholdConditionCache.set, if_neg hp] at hq
    exact h q s' hq

theorem set_self (cache : ThresholdConditionCache) (p : Option Nat) (s : ThresholdState) :
    cache.set p s p = some s := if_pos rfl

def RunFrom (t : TimedMap) (c : ConditionChecker) (b : Nat) (s : ThresholdState) (r : Nat) : Prop :=
  r ≤ t.map.nHeight b + 1 ∧ (∀ k, r ≤ k → k ≤ t.map.nHeight b + 1 → c.branchState t b (k / c.period) = s) ∧
    ∀ k, k + 1 = r → c.branchState t b (k / c.period) ≠ s

theorem isRunStart_zero {p : Option Nat} (h : ∀ k, k ≤ nextHeight t p → c.stateAtHeight t p k = c.stateWithoutCache t p) :
    c.IsRunStart t p 0 :=
  ⟨Nat.zero_le _, fun k _ hk => h k hk, fun k hk => absurd hk (Nat.succ_ne_zero k)⟩

theorem stateWithoutCache_eq (halways : c.beginTime ≠ alwaysActive) (hnever : c.beginTime ≠ neverActive)
    (p : Option Nat) : c.stateWithoutCache t p = c.recursiveState t p := by
  rw [stateWithoutCache, if_neg halways, if_neg hnever]

section
variable (hm : t.map.Linked)
include hm

theorem nextHeight_back {i b : Nat} (hi : i ≤ t.map.nHeight b + 1) :
    nextHeight t (back t.map.pprev i b) = t.map.nHeight b + 1 - i := by
  cases hb : back t.map.pprev i b with
  | none =>
    have hshort : ¬i ≤ t.map.nHeight b := by
      intro hle
      obtain ⟨a, ha⟩ := hm.ranked.exists_back hle
      rw [hb] at ha
      cases ha
    show 0 = _
    omega
  | some a =>
    have hrank := hm.ranked.height_back hb
    show t.map.nHeight a + 1 = _
    omega

theorem countSignals_eq {n : Nat} {p : Option Nat} (hn : n ≤ nextHeight t p) :
    c.countSignals t n p = some ((List.range n).countP fun i => (p.bind (back t.map.pprev i)).any c.condition) := by
  induction n generalizing p with
  | zero =>
    rfl
  | succ n ih =>
    cases p with
    | none => exact absurd hn (Nat.not_succ_le_zero n)
    | some b =>
      have hprev : n ≤ nextHeight t (t.map.pprev b) := by
        rw [← back_one t.map.pprev, nextHeight_back hm (Nat.succ_pos _)]
        exact Nat.le_of_succ_le_succ hn
      rw [countSignals, ih hprev, List.range_succ_eq_map, List.countP_cons, List.countP_map]
      rfl

variable {b : Nat}

theorem stateNext_eq (state : ThresholdState) (hb : c.period ≤ t.map.nHeight b + 1) :
    c.stateNext t state b = some (c.periodStep t state b) := by
  cases state with
  | defined => rfl
  | started =>
    have hcount := countSignals_eq (c := c) hm (p := some b) hb
    rw [stateNext, hcount]
    rfl
  | lockedIn => rfl
  | active => rfl
  | failed => rfl

theorem branchState_ancestor {i a b k : Nat} (hi : back t.map.pprev i b = some a)
    (hk : c.period * k ≤ t.map.nHeight a + 1) : c.branchState t a k = c.branchState t b k := by
  induction k with
  | zero => rfl
  | succ k ih =>
    have hrank := hm.ranked.height_back hi
    have hle := Nat.mul_add_one c.period k
    have hsame : back t.map.pprev (t.map.nHeight b + 1 - c.period * (k + 1)) b =
        back t.map.pprev (t.map.nHeight a + 1 - c.period * (k + 1)) a := by
      rw [show t.map.nHeight b + 1 - c.period * (k + 1) = i + (t.map.nHeight a + 1 - c.period * (k + 1)) by omega,
        back_add, hi, Option.bind_some]
    simp [branchState, ih (by omega), hsame]

theorem recursiveState_back {i b : Nat} (hi : i ≤ t.map.nHeight b + 1) :
    c.recursiveState t (back t.map.pprev i b) = c.branchState t b ((t.map.nHeight b + 1 - i) / c.period) := by
  rw [← nextHeight_back hm hi]
  cases hb : back t.map.pprev i b with
  | none =>
    rw [show nextHeight t none = 0 from rfl, Nat.zero_div]
    rfl
  | some a => exact branchState_ancestor hm hb (Nat.mul_div_le _ _)

theorem stateAtHeight_eq (halways : c.beginTime ≠ alwaysActive) (hnever : c.beginTime ≠ neverActive)
    {b k : Nat} (hk : k ≤ t.map.nHeight b + 1) :
    c.stateAtHeight t (some b) k = c.branchState t b (k / c.period) := by
  have hback := recursiveState_back (c := c) hm (Nat.sub_le (t.map.nHeight b + 1) k)
  rw [Nat.sub_sub_self hk] at hback
  rw [stateAtHeight, stateWithoutCache_eq halways hnever]
  exact hback

variable (hperiod : 0 < c.period)
include hperiod

theorem branchState_succ {b k : Nat} (hk : c.period * (k + 1) ≤ t.map.nHeight b + 1) :
    ∃ a, back t.map.pprev (t.map.nHeight b + 1 - c.period * (k + 1)) b = some a ∧
      c.branchState t b (k + 1) = c.periodStep t (c.branchState t b k) a := by
  have hpos : 0 < c.period * (k + 1) := Nat.mul_pos hperiod (Nat.succ_pos k)
  obtain ⟨a, ha⟩ := hm.ranked.exists_back
    (show t.map.nHeight b + 1 - c.period * (k + 1) ≤ t.map.nHeight b by omega)
  refine ⟨a, ha, ?_⟩
  rw [branchState, ha]
  rfl

theorem recursiveState_boundary (hb : (t.map.nHeight b + 1) % c.period = 0) : c.period ≤ t.map.nHeight b + 1 ∧
      c.recursiveState t (some b) = c.periodStep t (c.recursiveState t (back t.map.pprev c.period b)) b := by
  obtain ⟨q, hq⟩ := Nat.dvd_of_mod_eq_zero hb
  cases q with
  | zero => omega
  | succ k =>
    have hle : c.period ≤ t.map.nHeight b + 1 := by
      rw [hq]
      exact Nat.le_mul_of_pos_right _ (Nat.succ_pos k)
    obtain ⟨a, ha, hstep⟩ := branchState_succ hm hperiod (Nat.le_of_eq hq.symm)
    rw [hq, Nat.sub_self] at ha
    obtain rfl := Option.some.inj ha
    have hbefore : (t.map.nHeight b + 1 - c.period) / c.period = k := by
      rw [hq, Nat.mul_succ, Nat.add_sub_cancel, Nat.mul_div_cancel_left _ hperiod]
    refine ⟨hle, ?_⟩
    rw [recursiveState_back hm hle, hbefore, ← hstep]
    show c.branchState t b ((t.map.nHeight b + 1) / c.period) = _
    rw [hq, Nat.mul_div_cancel_left _ hperiod]

theorem periodParent_eq (p : Option Nat) :
    ∃ q, c.periodParent t p = some q ∧ nextHeight t q = c.period * (nextHeight t p / c.period) ∧
      c.recursiveState t q = c.recursiveState t p ∧
      ∀ b, p = some b → q = back t.map.pprev ((t.map.nHeight b + 1) % c.period) b := by
  cases p with
  | none =>
    refine ⟨none, rfl, ?_, rfl, ?_⟩
    · rw [show nextHeight t none = 0 from rfl, Nat.zero_div, Nat.mul_zero]
    · intro b hb
      cases hb
  | some b =>
    have hle := Nat.mod_le (t.map.nHeight b + 1) c.period
    have hdiv : t.map.nHeight b + 1 - (t.map.nHeight b + 1) % c.period =
        c.period * ((t.map.nHeight b + 1) / c.period) := by
      have hsum := Nat.div_add_mod (t.map.nHeight b + 1) c.period
      omega
    refine ⟨_, getAncestor_sub hm b _, ?_, ?_, ?_⟩
    · rw [nextHeight_back hm hle, hdiv]
      rfl
    · rw [recursiveState_back hm hle, hdiv, Nat.mul_div_cancel_left _ hperiod]
      rfl
    · intro b' hb
      obtain rfl := Option.some.inj hb
      rfl

theorem recursiveState_moves (b : Nat) : c.recursiveState t (t.map.pprev b) = c.recursiveState t (some b) ∨
      (c.recursiveState t (t.map.pprev b)).Moves (c.recursiveState t (some b)) := by
  have hhere : c.recursiveState t (some b) = c.branchState t b ((t.map.nHeight b + 1) / c.period) := rfl
  rw [← back_one t.map.pprev, recursiveState_back hm (Nat.succ_pos _), Nat.add_sub_cancel, hhere]
  by_cases hb : (t.map.nHeight b + 1) % c.period = 0
  · obtain ⟨q, hq⟩ := Nat.dvd_of_mod_eq_zero hb
    cases q with
    | zero => omega
    | succ k =>
      have hk : t.map.nHeight b / c.period = k := by
        have hnext := Nat.mul_add_one c.period k
        exact Nat.div_eq_of_lt_le (by rw [Nat.mul_comm]; omega) (by rw [Nat.mul_comm]; omega)
      obtain ⟨a, -, hstep⟩ := branchState_succ hm hperiod (Nat.le_of_eq hq.symm)
      rw [hq, Nat.mul_div_cancel_left _ hperiod, hk, hstep]
      exact (periodStep_moves _ a).imp Eq.symm id
  · left
    rw [Nat.succ_div_of_not_dvd]
    intro hdvd
    exact hb (Nat.mod_eq_zero_of_dvd hdvd)

theorem branchState_defined_le {b k j : Nat} (hk : c.period * k ≤ t.map.nHeight b + 1)
    (h : c.branchState t b k = .defined) (hj : j ≤ k) :
    c.branchState t b j = .defined := by
  induction k with
  | zero =>
    obtain rfl : j = 0 := by omega
    rfl
  | succ k ih =>
    rcases Nat.eq_or_lt_of_le hj with rfl | hle
    · exact h
    · have hless := Nat.mul_add_one c.period k
      obtain ⟨a, -, hstep⟩ := branchState_succ hm hperiod hk
      rw [hstep] at h
      exact ih (by omega) (eq_defined_of_periodStep h) (Nat.le_of_lt_succ hle)

theorem stateWithoutCache_moves (b : Nat) :
    c.stateWithoutCache t (t.map.pprev b) = c.stateWithoutCache t (some b) ∨
      (c.stateWithoutCache t (t.map.pprev b)).Moves (c.stateWithoutCache t (some b)) := by
  by_cases halways : c.beginTime = alwaysActive
  · simp [stateWithoutCache, halways]
  by_cases hnever : c.beginTime = neverActive
  · simp [stateWithoutCache, hnever]
  · simp only [stateWithoutCache_eq halways hnever]
    exact recursiveState_moves hm hperiod b

variable (hgrows : t.MedianTimeGrows) {cache : ThresholdConditionCache}
include hgrows

theorem recursiveState_before_start (hb : t.getMedianTimePast b < c.beginTime) :
    c.recursiveState t (some b) = .defined := by
  have hall : ∀ k, c.period * k ≤ t.map.nHeight b + 1 → c.branchState t b k = .defined := by
    intro k hk
    induction k with
    | zero => rfl
    | succ k ih =>
      have hle := Nat.mul_add_one c.period k
      obtain ⟨a, ha, hstep⟩ := branchState_succ hm hperiod hk
      have hearly := hgrows.back_le ha
      rw [hstep, ih (by omega), periodStep, if_neg (by omega)]
  exact hall _ (Nat.mul_div_le _ _)

/-- Walking back and then forward over the blocks on the way ends with the state of
the block the walk began at. -/
theorem walk_eq {fuel : Nat} {p : Option Nat} (hcache : c.Sound t cache)
    (hp : nextHeight t p % c.period = 0) (hfuel : nextHeight t p < fuel) (v : List Nat) :
    ∃ q cache' v' s cache'', c.walkBack t fuel p cache v = some (q, cache', v' ++ v) ∧ cache' q = some s ∧
      c.Sound t cache'' ∧
      c.walkForward t s cache' (v' ++ v) = c.walkForward t (c.recursiveState t p) cache'' v := by
  induction fuel generalizing p v with
  | zero => omega
  | succ fuel ih =>
    cases hknown : cache p with
    | some s =>
      have hs := hcache p s hknown
      refine ⟨p, cache, [], s, cache, ?_, hknown, hcache, ?_⟩
      · cases p <;> rw [walkBack, hknown] <;> rfl
      · rw [hs]
        rfl
    | none =>
      cases p with
      | none =>
        refine ⟨none, _, [], .defined, _, ?_, set_self _ _ _, hcache.set rfl, rfl⟩
        rw [walkBack, hknown]
        rfl
      | some b =>
        rw [walkBack, hknown, Option.isSome_none, if_neg Bool.false_ne_true]
        obtain ⟨hle, hboundary⟩ := recursiveState_boundary hm hperiod hp
        by_cases hearly : t.getMedianTimePast b < c.beginTime
        · have hdefined := recursiveState_before_start hm hperiod hgrows hearly
          refine ⟨some b, _, [], .defined, _, if_pos hearly, set_self _ _ _, hcache.set hdefined.symm, ?_⟩
          rw [hdefined]
          rfl
        · have hback := nextHeight_back hm hle
          have hmod : nextHeight t (back t.map.pprev c.period b) % c.period = 0 := by
            rw [hback, ← Nat.mod_eq_sub_mod hle]
            exact hp
          have hlow : nextHeight t (back t.map.pprev c.period b) < fuel := by
            have hfuel' : t.map.nHeight b + 1 < fuel + 1 := hfuel
            omega
          obtain ⟨q, cache', v', s, cache'', hwalk, hs, hsound, hforward⟩ := ih hmod hlow (b :: v)
          refine ⟨q, cache', v' ++ [b], s, _, ?_, hs, hsound.set hboundary.symm, ?_⟩
          · rw [if_neg hearly, getAncestor_sub hm, Option.bind_some, hwalk, List.append_assoc]
            rfl
          · rw [List.append_assoc]
            refine hforward.trans ?_
            simp [walkForward, stateNext_eq hm _ hle, ← hboundary]

/-- Whatever a sound cache holds, the answer is the state of the recursion. -/
theorem getStateFor_eq (hcache : c.Sound t cache) (p : Option Nat) :
    ∃ cache', c.getStateFor t p cache = some (c.stateWithoutCache t p, cache') ∧ c.Sound t cache' := by
  rw [getStateFor, stateWithoutCache]
  by_cases halways : c.beginTime = alwaysActive
  · rw [if_pos halways, if_pos halways]
    exact ⟨cache, rfl, hcache⟩
  rw [if_neg halways, if_neg halways]
  by_cases hnever : c.beginTime = neverActive
  · rw [if_pos hnever, if_pos hnever]
    exact ⟨cache, rfl, hcache⟩
  rw [if_neg hnever, if_neg hnever]
  obtain ⟨q, hq, hheight, hstate, -⟩ := periodParent_eq hm hperiod p
  have hmod : nextHeight t q % c.period = 0 := by simp [hheight]
  have hfuel : nextHeight t q < walkFuel t q := by
    cases q with
    | none => exact Nat.succ_pos 1
    | some b => exact Nat.lt_succ_self _
  obtain ⟨q', cache', v', s, cache'', hwalk, hs, hsound, hforward⟩ := walk_eq hm hperiod hgrows hcache hmod hfuel []
  refine ⟨cache'', ?_, hsound⟩
  rw [hq, Option.bind_some, hwalk]
  simp only [hs, Option.bind_some]
  rw [hforward, walkForward, hstate]

theorem sinceLoop_eq (halways : c.beginTime ≠ alwaysActive) (hnever : c.beginTime ≠ neverActive) {s : ThresholdState}
    (hs : s ≠ .defined) {fuel i a : Nat} (hcache : c.Sound t cache)
    (ha : back t.map.pprev i b = some a) (hmod : (t.map.nHeight a + 1) % c.period = 0)
    (hall : ∀ k, t.map.nHeight a + 1 ≤ k → k ≤ t.map.nHeight b + 1 → c.branchState t b (k / c.period) = s)
    (hfuel : t.map.nHeight a < fuel) :
    ∃ (r : Nat) (cache' : ThresholdConditionCache), c.sinceLoop t s fuel a (back t.map.pprev c.period a) cache = some ((r : Int), cache') ∧
      c.Sound t cache' ∧ c.RunFrom t b s r := by
  induction fuel generalizing i a cache with
  | zero => omega
  | succ fuel ih =>
    have hrank := hm.ranked.height_back ha
    cases hprev : back t.map.pprev c.period a with
    | none =>
      have hlow : t.map.nHeight a < c.period := by
        by_contra hge
        have hnone := nextHeight_back hm (i := c.period) (b := a) (by omega)
        rw [hprev] at hnone
        exact absurd hnone (by show 0 ≠ _; omega)
      refine ⟨t.map.nHeight a + 1, cache, rfl, hcache, by omega, hall, ?_⟩
      intro k hk
      rw [Nat.div_eq_of_lt (by omega)]
      exact hs.symm
    | some x =>
      have hx := hm.ranked.height_back hprev
      obtain ⟨q, hq⟩ := Nat.dvd_of_mod_eq_zero hmod
      have hq' : t.map.nHeight x + 1 + c.period = c.period * q := by omega
      have hxmod : (t.map.nHeight x + 1) % c.period = 0 := by
        rw [← Nat.add_mod_right, hq', Nat.mul_mod_right]
      -- all heights of the period before `a` have the state of `x`
      have hperiodBefore : ∀ k, t.map.nHeight x + 1 ≤ k → k ≤ t.map.nHeight a →
          k / c.period = (t.map.nHeight x + 1) / c.period := by
        intro k hlow hhigh
        obtain ⟨q', hxq⟩ := Nat.dvd_of_mod_eq_zero hxmod
        have hnext := Nat.mul_add_one c.period q'
        rw [hxq, Nat.mul_div_cancel_left _ hperiod]
        exact Nat.div_eq_of_lt_le (by rw [Nat.mul_comm]; omega) (by rw [Nat.mul_comm]; omega)
      have hxb : back t.map.pprev (i + c.period) b = some x := by simp [back_add, ha, hprev]
      have hstate : c.stateWithoutCache t (some x) = c.branchState t b ((t.map.nHeight x + 1) / c.period) := by
        rw [stateWithoutCache_eq halways hnever]
        exact branchState_ancestor hm hxb (Nat.mul_div_le _ _)
      obtain ⟨cache', hrun, hcache'⟩ := getStateFor_eq hm hperiod hgrows hcache (some x)
      rw [sinceLoop, hrun, Option.bind_some]
      by_cases hsame : c.stateWithoutCache t (some x) = s
      · have hall' : ∀ k, t.map.nHeight x + 1 ≤ k → k ≤ t.map.nHeight b + 1 →
            c.branchState t b (k / c.period) = s := by
          intro k hlow hhigh
          by_cases hk : k ≤ t.map.nHeight a
          · rw [hperiodBefore k hlow hk, ← hstate, hsame]
          · exact hall k (by omega) hhigh
        rw [if_pos hsame, getAncestor_sub hm, Option.bind_some]
        exact ih hcache' hxb hxmod hall' (by omega)
      · rw [if_neg hsame]
        refine ⟨t.map.nHeight a + 1, cache', rfl, hcache', by omega, hall, ?_⟩
        intro k hk
        rw [hperiodBefore k (by omega) (by omega), ← hstate]
        exact hsame

theorem getStateSinceHeightFor_eq (hcache : c.Sound t cache) (p : Option Nat) :
    ∃ (r : Nat) (cache' : ThresholdConditionCache), c.getStateSinceHeightFor t p cache = some ((r : Int), cache') ∧ c.Sound t cache' ∧
      c.IsRunStart t p r := by
  rw [getStateSinceHeightFor]
  by_cases hspecial : c.beginTime = alwaysActive ∨ c.beginTime = neverActive
  · refine ⟨0, cache, if_pos hspecial, hcache, isRunStart_zero ?_⟩
    intro k _
    rw [stateAtHeight, stateWithoutCache, stateWithoutCache]
    rcases hspecial with halways | hnever
    · simp [halways]
    · simp [hnever]
  rw [if_neg hspecial]
  obtain ⟨halways, hnever⟩ := not_or.mp hspecial
  obtain ⟨cache', hrun, hcache'⟩ := getStateFor_eq hm hperiod hgrows hcache p
  have hstate := stateWithoutCache_eq (t := t) halways hnever p
  rw [hrun, Option.bind_some]
  by_cases hdefined : c.stateWithoutCache t p = .defined
  · refine ⟨0, cache', if_pos hdefined, hcache', isRunStart_zero ?_⟩
    intro k hk
    cases p with
    | none => rfl
    | some b =>
      rw [stateAtHeight_eq hm halways hnever hk, hdefined]
      rw [hstate] at hdefined
      exact branchState_defined_le hm hperiod (Nat.mul_div_le _ _) hdefined (Nat.div_le_div_right hk)
  rw [if_neg hdefined]
  obtain ⟨q, hq, hheight, hsame, hback⟩ := periodParent_eq hm hperiod p
  cases p with
  | none => exact absurd hstate hdefined
  | some b =>
    have hqb := hback b rfl
    cases q with
    | none => exact absurd (hstate.trans hsame.symm) hdefined
    | some a =>
      have hanext : t.map.nHeight a + 1 = c.period * ((t.map.nHeight b + 1) / c.period) := hheight
      have hall : ∀ k, t.map.nHeight a + 1 ≤ k → k ≤ t.map.nHeight b + 1 →
          c.branchState t b (k / c.period) = c.stateWithoutCache t (some b) := by
        intro k hlow hhigh
        have hle : (t.map.nHeight b + 1) / c.period ≤ k / c.period := by
          rw [Nat.le_div_iff_mul_le hperiod, Nat.mul_comm, ← hanext]
          exact hlow
        rw [hstate, Nat.le_antisymm (Nat.div_le_div_right hhigh) hle]
        rfl
      have hmod : (t.map.nHeight a + 1) % c.period = 0 := by simp [hanext]
      obtain ⟨r, cache'', hloop, hsound, hrle, hrall, hrbefore⟩ := sinceLoop_eq hm hperiod hgrows halways hnever
        hdefined hcache' hqb.symm hmod hall (Nat.lt_succ_self _)
      refine ⟨r, cache'', ?_, hsound, hrle, ?_, ?_⟩
      · rw [hq, Option.join_some, Option.bind_some, getAncestor_sub hm]
        exact hloop
      · intro k hlow hhigh
        rw [stateAtHeight_eq hm halways hnever hhigh]
        exact hrall k hlow hhigh
      · intro k hk
        rw [stateAtHeight_eq hm halways hnever (by omega)]
        exact hrbefore k hk

theorem Queried.sound (h : c.Queried t cache) : c.Sound t cache := by
  induction h with
  | empty =>
    intro p s hs
    cases hs
  | @state cache cache' p s _ hrun ih =>
    obtain ⟨cache'', hrun', hsound⟩ := getStateFor_eq hm hperiod hgrows ih p
    rw [hrun] at hrun'
    obtain ⟨-, rfl⟩ := Prod.mk.inj (Option.some.inj hrun')
    exact hsound
  | @since cache cache' p height _ hrun ih =>
    obtain ⟨r, cache'', hrun', hsound, -⟩ := getStateSinceHeightFor_eq hm hperiod hgrows ih p
    rw [hrun] at hrun'
    obtain ⟨-, rfl⟩ := Prod.mk.inj (Option.some.inj hrun')
    exact hsound
end

/-- No sequence of earlier queries changes an answer. -/
theorem versionBits_cacheless (hm : BlockTree t.map) (hgrows : t.MedianTimeGrows) (hperiod : 0 < c.period)
    {cache : ThresholdConditionCache} (hcache : c.Queried t cache) (pindexPrev : Option Nat) :
    (∃ cache', c.getStateFor t pindexPrev cache = some (c.stateWithoutCache t pindexPrev, cache')) ∧
      (∀ b, c.stateWithoutCache t (t.map.pprev b) = c.stateWithoutCache t (some b) ∨
        (c.stateWithoutCache t (t.map.pprev b)).Moves (c.stateWithoutCache t (some b))) ∧
      ∃ (height : Nat) (cache' : ThresholdConditionCache), c.getStateSinceHeightFor t pindexPrev cache = some ((height : Int), cache') ∧
        c.IsRunStart t pindexPrev height := by
  have hlinked := hm.linked
  have hsound := hcache.sound hlinked hperiod hgrows
  obtain ⟨cache', hstate, -⟩ := getStateFor_eq hlinked hperiod hgrows hsound pindexPrev
  obtain ⟨height, cache'', hsince, -, hstart⟩ := getStateSinceHeightFor_eq hlinked hperiod hgrows hsound pindexPrev
  exact ⟨⟨cache', hstate⟩, stateWithoutCache_moves hlinked hperiod, height, cache'', hsince, hstart⟩

def sampleTimedMap : TimedMap := ⟨sampleBlockTree, fun _ => 100⟩

def sampleDeployment : ConditionChecker := ⟨fun _ => true, 50, 1000, 0, 2, 2⟩

theorem getMedianTimePast_sample (b : Nat) : sampleTimedMap.getMedianTimePast b = 100 := by
  have hall : ∀ (n : Nat) (p : Option Nat), ∀ x ∈ sampleTimedMap.lastTimes n p, x = 100 := by
    intro n
    induction n with
    | zero =>
      intro p x hx
      cases p <;> cases hx
    | succ n ih =>
      intro p x hx
      cases p with
      | none => cases hx
      | some b =>
        rw [TimedMap.lastTimes, List.mem_cons] at hx
        rcases hx with hx | hx
        · exact hx
        · exact ih _ x hx
  exact congrArg Nat.cast (hall _ _ _ (medianTime_mem (List.cons_ne_nil _ _)))

theorem versionBits_cacheless_sample : ∃ cache cache', sampleDeployment.Queried sampleTimedMap cache ∧
      sampleDeployment.getStateFor sampleTimedMap (some 5) cache =
        some (sampleDeployment.stateWithoutCache sampleTimedMap (some 5), cache') := by
  have hgrows : sampleTimedMap.MedianTimeGrows := by
    intro b p _
    exact Int.le_of_eq ((getMedianTimePast_sample p).trans (getMedianTimePast_sample b).symm)
  have hm := blockTree_sample
  have hperiod : 0 < sampleDeployment.period := by decide
  obtain ⟨⟨cache, hcache⟩, -, -⟩ := versionBits_cacheless hm hgrows hperiod (.empty) (some 3)
  have hqueried := Queried.state .empty hcache
  obtain ⟨⟨cache', hstate⟩, -, -⟩ := versionBits_cacheless hm hgrows hperiod hqueried (some 5)
  exact ⟨cache, cache', hqueried, hstate⟩

end ConditionChecker

end Byze
