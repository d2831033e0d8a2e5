import Mathlib.Data.Nat.Bitwise
import Byze.Lib.Ancestry

/-! The block map with its skip pointers. Walking back over them reaches the same
blocks as following `pprev`, and the last common ancestor of two blocks is found. -/

namespace Byze
open Ancestry

def invertLowestOne (n : Nat) : Nat := n &&& (n - 1)

def getSkipHeight (height : Nat) : Nat :=
  if height < 2 then 0
  else if height &&& 1 ≠ 0 then invertLowestOne (invertLowestOne (height - 1)) + 1
  else invertLowestOne height

/-- A block index, with pointers to other ones as their positions in the map. -/
structure IndexNode where
  pprev : Option Nat
  pskip : Option Nat
  nHeight : Nat
  deriving DecidableEq

abbrev BlockMap := List IndexNode

namespace BlockMap

def pprev (m : BlockMap) (b : Nat) : Option Nat := m[b]?.bind IndexNode.pprev

def pskip (m : BlockMap) (b : Nat) : Option Nat := m[b]?.bind IndexNode.pskip

def nHeight (m : BlockMap) (b : Nat) : Nat := m[b]?.elim 0 IndexNode.nHeight

/-- Whether the walk follows `pskip`, which it does not if that of `pprev` is better. -/
def followsSkip (height heightWalk : Nat) : Bool :=
  let heightSkip := getSkipHeight heightWalk
  let heightSkipPrev := getSkipHeight (heightWalk - 1)
  heightSkip == height ||
    (decide (height < heightSkip) &&
      !(decide (heightSkipPrev + 2 < heightSkip) && decide (height ≤ heightSkipPrev)))

/-- The loop of `GetAncestor`. Without a `pprev` its assertion fails. -/
def walkAncestor (m : BlockMap) (height : Nat) : Nat → Nat → Nat → Option Nat
  | 0, _, _ => none
  | fuel + 1, pindexWalk, heightWalk =>
    if height < heightWalk then
      match if followsSkip height heightWalk then m.pskip pindexWalk else none with
      | some pskip => m.walkAncestor height fuel pskip (getSkipHeight heightWalk)
      | none => (m.pprev pindexWalk).bind fun pprev => m.walkAncestor height fuel pprev (heightWalk - 1)
    else some pindexWalk

/-- A null pointer for heights that the block has no ancestor at. -/
def getAncestor (m : BlockMap) (b : Nat) (height : Int) : Option (Option Nat) :=
  if m.nHeight b < height ∨ height < 0 then some none
  else (m.walkAncestor height.toNat (m.nHeight b + 1) b (m.nHeight b)).map some

/-- A new block is linked to the one before it, with the skip pointer that
`BuildSkip` gives it. -/
def addToBlockIndex (m : BlockMap) (pprev : Nat) : Option BlockMap :=
  if pprev < m.length then
    let nHeight := m.nHeight pprev + 1
    (m.getAncestor pprev (getSkipHeight nHeight)).map fun pskip => m ++ [⟨some pprev, pskip, nHeight⟩]
  else none

def skipApart (m : BlockMap) : Nat → Nat → Nat → Option (Nat × Nat)
  | 0, _, _ => none
  | fuel + 1, pa, pb =>
    if m.pskip pa ≠ m.pskip pb then
      (m.pskip pa).bind fun pa => (m.pskip pb).bind fun pb => m.skipApart fuel pa pb
    else some (pa, pb)

def forkPoint (m : BlockMap) : Nat → Nat → Nat → Option Nat
  | 0, _, _ => none
  | fuel + 1, pa, pb =>
    if pa ≠ pb then
      (m.skipApart (fuel + 1) pa pb).bind fun p =>
        (m.pprev p.1).bind fun pa => (m.pprev p.2).bind fun pb => m.forkPoint fuel pa pb
    else some pa

/-- The loops are cut off after `fuel` rounds. -/
def lastCommonAncestor (m : BlockMap) (fuel pa pb : Nat) : Option Nat :=
  if m.nHeight pb < m.nHeight pa then
    (m.getAncestor pa (m.nHeight pb)).join.bind fun pa => m.forkPoint fuel pa pb
  else if m.nHeight pa < m.nHeight pb then
    (m.getAncestor pb (m.nHeight pa)).join.bind fun pb => m.forkPoint fuel pa pb
  else m.forkPoint fuel pa pb

end BlockMap

/-- Block maps that grow from the first block by adding one block after another. -/
inductive BlockTree : BlockMap → Prop
  | genesis : BlockTree [⟨none, none, 0⟩]
  | add {m m' : BlockMap} {pprev : Nat} (hm : BlockTree m) (hadd : m.addToBlockIndex pprev = some m') :
      BlockTree m'

theorem getSkipHeight_lt {height : Nat} (h : 0 < height) : getSkipHeight height < height := by
  have hinv : ∀ n, invertLowestOne n ≤ n - 1 := fun n => Nat.and_le_right
  unfold getSkipHeight
  by_cases h2 : height < 2
  · rwa [if_pos h2]
  rw [if_neg h2]
  by_cases hodd : height &&& 1 ≠ 0
  · rw [if_pos hodd]
    have h1 := hinv (invertLowestOne (height - 1))
    have h2 := hinv (height - 1)
    omega
  · rw [if_neg hodd]
    have h1 := hinv height
    omega

structure BlockMap.Linked (m : BlockMap) : Prop where
  ranked : Ranked m.pprev m.nHeight
  root : ∀ b < m.length, m.nHeight b = 0 → b = 0
  prev_lt : ∀ {b p : Nat}, m.pprev b = some p → p < m.length
  skip : ∀ b, m.nHeight b ≠ 0 → ∃ s, m.pskip b = some s ∧ IsAncestor m.pprev s b ∧
    m.nHeight s = getSkipHeight (m.nHeight b)

namespace BlockMap.Linked
variable {m : BlockMap}

theorem walkAncestor_eq (h : m.Linked) {height : Nat} {fuel b : Nat} (hle : height ≤ m.nHeight b)
    (hfuel : m.nHeight b < fuel) :
    m.walkAncestor height fuel b (m.nHeight b) = back m.pprev (m.nHeight b - height) b := by
  induction fuel generalizing b with
  | zero => omega
  | succ fuel ih =>
    rw [walkAncestor]
    by_cases hlt : height < m.nHeight b
    · rw [if_pos hlt]
      obtain ⟨s, hs, hanc, hheight⟩ := h.skip b (by omega)
      by_cases hfollow : followsSkip height (m.nHeight b) = true
      · have hskip : height ≤ getSkipHeight (m.nHeight b) := by
          simp only [followsSkip, Bool.or_eq_true, beq_iff_eq, Bool.and_eq_true, decide_eq_true_eq] at hfollow
          omega
        have hlow := getSkipHeight_lt (show 0 < m.nHeight b by omega)
        simp only [if_pos hfollow, hs]
        rw [← hheight, ih (by omega) (by omega)]
        have hsplit : m.nHeight b - height = m.nHeight b - m.nHeight s + (m.nHeight s - height) := by omega
        simp [hsplit, back_add, h.ranked.back_of_isAncestor hanc]
      · obtain ⟨p, hp⟩ := h.ranked.exists_prev (show m.nHeight b ≠ 0 by omega)
        have hrank := h.ranked.height_prev hp
        simp only [if_neg hfollow, hp, Option.bind_some]
        rw [hrank, Nat.add_sub_cancel, ih (by omega) (by omega),
          show m.nHeight p + 1 - height = (m.nHeight p - height) + 1 by omega, back, hp, Option.bind_some]
    · rw [if_neg hlt, show m.nHeight b - height = 0 by omega, back]

theorem getAncestor_eq (h : m.Linked) {b height : Nat} (hle : height ≤ m.nHeight b) :
    ∃ a, m.getAncestor b height = some (some a) ∧ back m.pprev (m.nHeight b - height) b = some a ∧
      m.nHeight a = height := by
  obtain ⟨a, ha⟩ := h.ranked.exists_back (show m.nHeight b - height ≤ m.nHeight b by omega)
  have hrank := h.ranked.height_back ha
  have hwalk := h.walkAncestor_eq hle (Nat.lt_succ_self (m.nHeight b))
  have hin : ¬ ((m.nHeight b : Int) < height ∨ (height : Int) < 0) := by omega
  refine ⟨a, ?_, ha, by omega⟩
  rw [getAncestor, if_neg hin, Int.toNat_natCast, hwalk, ha, Option.map_some]

theorem skipApart_eq (h : m.Linked) {fuel pa pb : Nat} (heq : m.nHeight pa = m.nHeight pb)
    (hne : pa ≠ pb) (hroot : ∃ r, Common m.pprev pa pb r) (hfuel : m.nHeight pa < fuel) :
    ∃ xa xb, m.skipApart fuel pa pb = some (xa, xb) ∧ m.nHeight xa = m.nHeight xb ∧ xa ≠ xb ∧
      m.nHeight xa ≤ m.nHeight pa ∧ ∀ c, Common m.pprev pa pb c ↔ Common m.pprev xa xb c := by
  induction fuel generalizing pa pb with
  | zero => omega
  | succ fuel ih =>
    rw [skipApart]
    by_cases hskip : m.pskip pa = m.pskip pb
    · rw [if_neg (not_not.mpr hskip)]
      exact ⟨pa, pb, rfl, heq, hne, le_rfl, fun _ => Iff.rfl⟩
    · rw [if_pos hskip]
      obtain ⟨r, hr⟩ := hroot
      have hlow := h.ranked.common_lt_of_ne (.refl pa) (.refl pb) heq hne hr
      obtain ⟨sa, hsa, hanca, hha⟩ := h.skip pa (by omega)
      obtain ⟨sb, hsb, hancb, hhb⟩ := h.skip pb (by omega)
      have hsne : sa ≠ sb := by
        intro hs
        apply hskip
        rw [hsa, hsb, hs]
      have hseq : m.nHeight sa = m.nHeight sb := by rw [hha, hhb, heq]
      have hlt := getSkipHeight_lt (show 0 < m.nHeight pa by omega)
      have hcommon := h.ranked.common_back hanca hancb fun c hc => by
        have hc' := h.ranked.common_lt_of_ne hanca hancb hseq hsne hc
        omega
      obtain ⟨xa, xb, hx, hxeq, hxne, hxle, hxc⟩ := ih hseq hsne ⟨r, (hcommon r).mp hr⟩ (by omega)
      refine ⟨xa, xb, ?_, hxeq, hxne, by omega, fun c => (hcommon c).trans (hxc c)⟩
      simp [hsa, hsb, hx]

theorem forkPoint_isMeet (h : m.Linked) {fuel pa pb : Nat} (heq : m.nHeight pa = m.nHeight pb)
    (hroot : ∃ r, Common m.pprev pa pb r) (hfuel : m.nHeight pa < fuel) :
    ∃ c, m.forkPoint fuel pa pb = some c ∧ IsMeet m.pprev m.nHeight pa pb c := by
  induction fuel generalizing pa pb with
  | zero => omega
  | succ fuel ih =>
    rw [forkPoint]
    by_cases hne : pa = pb
    · subst hne
      rw [if_neg (not_not.mpr rfl)]
      exact ⟨pa, rfl, IsMeet.self h.ranked⟩
    · obtain ⟨xa, xb, hx, hxeq, hxne, hxle, hxc⟩ := h.skipApart_eq heq hne hroot hfuel
      obtain ⟨r, hr⟩ := hroot
      have hlow : ∀ c, Common m.pprev xa xb c → m.nHeight c < m.nHeight xa := fun c =>
        h.ranked.common_lt_of_ne (.refl xa) (.refl xb) hxeq hxne
      have hrlow := hlow r ((hxc r).mp hr)
      obtain ⟨ya, hya⟩ := h.ranked.exists_prev (show m.nHeight xa ≠ 0 by omega)
      obtain ⟨yb, hyb⟩ := h.ranked.exists_prev (show m.nHeight xb ≠ 0 by omega)
      have hra := h.ranked.height_prev hya
      have hrb := h.ranked.height_prev hyb
      have hcommon := h.ranked.common_back (.of_prev hya) (.of_prev hyb) fun c hc => by
        have hc' := hlow c hc
        omega
      have hsame : ∀ c, Common m.pprev pa pb c ↔ Common m.pprev ya yb c := fun c =>
        (hxc c).trans (hcommon c)
      obtain ⟨c, hc, hmeet⟩ := ih (show m.nHeight ya = m.nHeight yb by omega) ⟨r, (hsame r).mp hr⟩ (by omega)
      refine ⟨c, ?_, hmeet.congr hsame⟩
      simp [hne, hx, hya, hyb, hc]

theorem back_lt (h : m.Linked) {n a b : Nat} (hb : b < m.length) (hn : back m.pprev n b = some a) :
    a < m.length := by
  induction n generalizing b with
  | zero =>
    obtain rfl := Option.some.inj hn
    exact hb
  | succ n ih =>
    obtain ⟨p, hp, hn⟩ := Option.bind_eq_some_iff.mp hn
    exact ih (h.prev_lt hp) hn

theorem isAncestor_zero (h : m.Linked) {b : Nat} (hb : b < m.length) : IsAncestor m.pprev 0 b := by
  obtain ⟨a, ha⟩ := h.ranked.exists_back (le_refl (m.nHeight b))
  have hrank := h.ranked.height_back ha
  rw [h.root a (h.back_lt hb ha) (by omega)] at ha
  exact ⟨_, ha⟩

theorem lastCommonAncestor_isMeet (h : m.Linked) {pa pb : Nat} (ha : pa < m.length) (hb : pb < m.length)
    {fuel : Nat} (hfuel : min (m.nHeight pa) (m.nHeight pb) < fuel) :
    ∃ c, m.lastCommonAncestor fuel pa pb = some c ∧ IsMeet m.pprev m.nHeight pa pb c := by
  have hroot : Common m.pprev pa pb 0 := ⟨h.isAncestor_zero ha, h.isAncestor_zero hb⟩
  rw [lastCommonAncestor]
  by_cases hgt : m.nHeight pb < m.nHeight pa
  · obtain ⟨x, hx, hback, hheight⟩ := h.getAncestor_eq hgt.le
    have hcommon := h.ranked.common_back ⟨_, hback⟩ (.refl pb) fun c hc => by
      have hle := h.ranked.height_le hc.2
      omega
    obtain ⟨c, hc, hmeet⟩ :=
      h.forkPoint_isMeet hheight ⟨0, (hcommon 0).mp hroot⟩ (show m.nHeight x < fuel by omega)
    refine ⟨c, ?_, hmeet.congr hcommon⟩
    rw [if_pos hgt, hx]
    exact hc
  rw [if_neg hgt]
  by_cases hlt : m.nHeight pa < m.nHeight pb
  · obtain ⟨x, hx, hback, hheight⟩ := h.getAncestor_eq hlt.le
    have hcommon := h.ranked.common_back (.refl pa) ⟨_, hback⟩ fun c hc => by
      have hle := h.ranked.height_le hc.1
      omega
    obtain ⟨c, hc, hmeet⟩ :=
      h.forkPoint_isMeet hheight.symm ⟨0, (hcommon 0).mp hroot⟩ (show m.nHeight pa < fuel by omega)
    refine ⟨c, ?_, hmeet.congr hcommon⟩
    rw [if_pos hlt, hx]
    exact hc
  · rw [if_neg hlt]
    exact h.forkPoint_isMeet (by omega) ⟨0, hroot⟩ (by omega)

theorem genesis : Linked [⟨none, none, 0⟩] := by
  have hheight : ∀ b, nHeight [⟨none, none, 0⟩] b = 0 := by
    intro b
    cases b <;> rfl
  have hprev : ∀ b, pprev [⟨none, none, 0⟩] b = none := by
    intro b
    cases b <;> rfl
  constructor
  · constructor
    · intro b p hp
      rw [hprev] at hp
      cases hp
    · intro b hb
      exact absurd (hheight b) hb
  · intro b hb _
    simpa using hb
  · intro b p hp
    rw [hprev] at hp
    cases hp
  · intro b hb
    exact absurd (hheight b) hb

end BlockMap.Linked

section
variable {m : BlockMap} {node : IndexNode} {b : Nat}

theorem getElem?_concat_of_gt (h : m.length < b) : (m ++ [node])[b]? = none := by
  rw [List.getElem?_eq_none_iff, List.length_append]
  exact h

theorem pprev_concat (h : b < m.length) : BlockMap.pprev (m ++ [node]) b = m.pprev b := by
  rw [BlockMap.pprev, List.getElem?_append_left h]
  rfl

theorem pskip_concat (h : b < m.length) : BlockMap.pskip (m ++ [node]) b = m.pskip b := by
  rw [BlockMap.pskip, List.getElem?_append_left h]
  rfl

theorem nHeight_concat (h : b < m.length) : BlockMap.nHeight (m ++ [node]) b = m.nHeight b := by
  rw [BlockMap.nHeight, List.getElem?_append_left h]
  rfl

theorem back_concat (hm : m.Linked) (h : b < m.length) (n : Nat) :
    back (BlockMap.pprev (m ++ [node])) n b = back m.pprev n b := by
  induction n generalizing b with
  | zero => rfl
  | succ n ih =>
    rw [back, back, pprev_concat h]
    cases hp : m.pprev b with
    | none => rfl
    | some p => exact ih (hm.prev_lt hp)

theorem BlockMap.Linked.add (hm : m.Linked) (hb : b < m.length) :
    ∃ m', m.addToBlockIndex b = some m' ∧ m'.Linked := by
  have hlow := getSkipHeight_lt (Nat.succ_pos (m.nHeight b))
  obtain ⟨s, hs, hback, hheight⟩ := hm.getAncestor_eq (Nat.le_of_lt_succ hlow)
  refine ⟨m ++ [⟨some b, some s, m.nHeight b + 1⟩], ?_, ?_⟩
  · rw [addToBlockIndex, if_pos hb]
    simp [hs]
  generalize hnode : (⟨some b, some s, m.nHeight b + 1⟩ : IndexNode) = node
  have hprev : BlockMap.pprev (m ++ [node]) m.length = some b := by simp [pprev, ← hnode]
  have hskip : BlockMap.pskip (m ++ [node]) m.length = some s := by simp [pskip, ← hnode]
  have htop : BlockMap.nHeight (m ++ [node]) m.length = m.nHeight b + 1 := by simp [nHeight, ← hnode]
  have hs' : s < m.length := hm.back_lt hb hback
  have hgone : ∀ c, m.length < c → BlockMap.nHeight (m ++ [node]) c = 0 := by
    intro c hc
    rw [nHeight, getElem?_concat_of_gt hc]
    rfl
  have hprevs : ∀ {c p : Nat}, BlockMap.pprev (m ++ [node]) c = some p →
      c < m.length ∧ m.pprev c = some p ∨ c = m.length ∧ p = b := by
    intro c p hp
    rcases lt_trichotomy c m.length with hc | rfl | hc
    · exact Or.inl ⟨hc, (pprev_concat hc).symm.trans hp⟩
    · exact Or.inr ⟨rfl, Option.some.inj (hp.symm.trans hprev)⟩
    · rw [pprev, getElem?_concat_of_gt hc] at hp
      cases hp
  have hprev_lt : ∀ {c p : Nat}, BlockMap.pprev (m ++ [node]) c = some p → p < m.length := by
    intro c p hp
    rcases hprevs hp with ⟨-, hp⟩ | ⟨-, rfl⟩
    · exact hm.prev_lt hp
    · exact hb
  have hanc : ∀ {a c : Nat}, c < m.length → IsAncestor m.pprev a c →
      IsAncestor (BlockMap.pprev (m ++ [node])) a c := by
    intro a c hc hac
    obtain ⟨n, hn⟩ := hac
    exact ⟨n, (back_concat hm hc n).trans hn⟩
  constructor
  · constructor
    · intro c p hp
      rw [nHeight_concat (hprev_lt hp)]
      rcases hprevs hp with ⟨hc, hp⟩ | ⟨rfl, rfl⟩
      · rw [nHeight_concat hc]
        exact hm.ranked.height_prev hp
      · exact htop
    · intro c hc
      rcases lt_trichotomy c m.length with hlt | rfl | hgt
      · rw [nHeight_concat hlt] at hc
        rw [pprev_concat hlt]
        exact hm.ranked.exists_prev hc
      · exact ⟨b, hprev⟩
      · exact absurd (hgone c hgt) hc
  · intro c hc hzero
    rw [List.length_append] at hc
    rcases Nat.lt_succ_iff_lt_or_eq.mp hc with hlt | rfl
    · exact hm.root c hlt ((nHeight_concat hlt).symm.trans hzero)
    · omega
  · intro c p hp
    have hlt := hprev_lt hp
    rw [List.length_append]
    omega
  · intro c hc
    rcases lt_trichotomy c m.length with hlt | rfl | hgt
    · rw [nHeight_concat hlt] at hc ⊢
      obtain ⟨t, ht, hta, hth⟩ := hm.skip c hc
      have htlt : t < m.length := by
        obtain ⟨n, hn⟩ := hta
        exact hm.back_lt hlt hn
      exact ⟨t, (pskip_concat hlt).trans ht, hanc hlt hta, (nHeight_concat htlt).trans hth⟩
    · refine ⟨s, hskip, (hanc hb ⟨_, hback⟩).trans (.of_prev hprev), ?_⟩
      rw [nHeight_concat hs', htop, hheight]
    · exact absurd (hgone c hgt) hc
end

theorem BlockTree.linked {m : BlockMap} (h : BlockTree m) : m.Linked := by
  induction h with
  | genesis => exact BlockMap.Linked.genesis
  | @add m m' pprev _ hadd ih =>
    by_cases hp : pprev < m.length
    · obtain ⟨m'', hm'', hlinked⟩ := ih.add hp
      rw [hadd] at hm''
      obtain rfl := Option.some.inj hm''
      exact hlinked
    · rw [BlockMap.addToBlockIndex, if_neg hp] at hadd
      cases hadd

/-- In every block tree `GetAncestor` is the block that `pprev` leads to, and
`LastCommonAncestor` ends with the highest common ancestor of two blocks. -/
theorem blockTree_ancestry {m : BlockMap} (h : BlockTree m) :
    (∀ b height, height ≤ m.nHeight b → ∃ a, m.getAncestor b height = some (some a) ∧
      back m.pprev (m.nHeight b - height) b = some a ∧ m.nHeight a = height) ∧
    ∀ pa < m.length, ∀ pb < m.length, ∃ c,
      (∀ fuel, min (m.nHeight pa) (m.nHeight pb) < fuel → m.lastCommonAncestor fuel pa pb = some c) ∧
        IsMeet m.pprev m.nHeight pa pb c := by
  have hm := h.linked
  constructor
  · intro b height hle
    exact hm.getAncestor_eq hle
  · intro pa ha pb hb
    obtain ⟨c, hc, hmeet⟩ := hm.lastCommonAncestor_isMeet ha hb (Nat.lt_succ_self _)
    refine ⟨c, fun fuel hfuel => ?_, hmeet⟩
    obtain ⟨c', hc', hmeet'⟩ := hm.lastCommonAncestor_isMeet ha hb hfuel
    have heq : m.nHeight c' = m.nHeight c := Nat.le_antisymm (hmeet.2 c' hmeet'.1) (hmeet'.2 c hmeet.1)
    rw [hc', hm.ranked.eq_of_height hmeet'.1.1 hmeet.1.1 heq]

def sampleBlockTree : BlockMap :=
  [⟨none, none, 0⟩, ⟨some 0, some 0, 1⟩, ⟨some 1, some 0, 2⟩, ⟨some 2, some 1, 3⟩, ⟨some 2, some 1, 3⟩,
    ⟨some 4, some 0, 4⟩]

theorem blockTree_sample : BlockTree sampleBlockTree := by
  have h1 := @BlockTree.add _ (sampleBlockTree.take 2) 0 .genesis (by decide)
  have h2 := @BlockTree.add _ (sampleBlockTree.take 3) 1 h1 (by decide)
  have h3 := @BlockTree.add _ (sampleBlockTree.take 4) 2 h2 (by decide)
  have h4 := @BlockTree.add _ (sampleBlockTree.take 5) 2 h3 (by decide)
  exact @BlockTree.add _ _ 4 h4 (by decide)

theorem blockTree_ancestry_sample :
    BlockTree sampleBlockTree ∧ sampleBlockTree.lastCommonAncestor 4 3 5 = some 2 ∧
      IsMeet sampleBlockTree.pprev sampleBlockTree.nHeight 3 5 2 := by
  obtain ⟨c, hc, hmeet⟩ := (blockTree_ancestry blockTree_sample).2 3 (by decide) 5 (by decide)
  have hrun := hc 4 (by decide)
  have hc2 : c = 2 := Option.some.inj (hrun.symm.trans (by decide))
  rw [hc2] at hmeet
  exact ⟨blockTree_sample, by decide, hmeet⟩

end Byze
