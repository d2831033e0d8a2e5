import Byze.ChainSelection
import Mathlib.Data.Prod.Lex

/-! What the steps keep: a mark of failure is passed on to descendants, a block is
linked as soon as its ancestors have their data, and no block that could be better than
one which is known to connect is missing from the candidates. -/

namespace Byze.ChainSelection
open StateWp OrderDual ChainSelection.BlockTree

namespace BlockTree
variable {Block : Type} {tree : BlockTree Block}

theorem pprev_isSome_of_ne {b : Block} (h : b ≠ tree.genesis) : ∃ p, tree.pprev b = some p := by
  cases hb : tree.pprev b with
  | none => exact absurd (tree.pprev_eq_none b hb) h
  | some p => exact ⟨p, rfl⟩

theorem ancestors_of_pprev {b p : Block} (h : tree.pprev b = some p) :
    tree.ancestors b = b :: tree.ancestors p := by
  rw [ancestors, tree.nHeight_pprev b p h, branch, h]
  rfl

theorem ancestors_genesis : tree.ancestors tree.genesis = [tree.genesis] := by
  rw [ancestors, tree.nHeight_genesis, branch]

variable {a b : Block}

theorem mem_ancestors_iff :
    a ∈ tree.ancestors b ↔ a = b ∨ ∃ p, tree.pprev b = some p ∧ a ∈ tree.ancestors p := by
  cases hb : tree.pprev b with
  | none =>
    rw [tree.pprev_eq_none b hb, ancestors_genesis]
    simp
  | some p => simp [ancestors_of_pprev hb]

theorem mem_ancestors_of_pprev {a b p : Block} (h : tree.pprev b = some p) :
    a ∈ tree.ancestors b ↔ a = b ∨ a ∈ tree.ancestors p := by
  simp [ancestors_of_pprev h]

@[simp] theorem self_mem_ancestors (b : Block) : b ∈ tree.ancestors b := mem_ancestors_iff.mpr (Or.inl rfl)

theorem induction_pprev (tree : BlockTree Block) {P : Block → Prop} (hgenesis : P tree.genesis)
    (hpprev : ∀ b p, tree.pprev b = some p → P p → P b) (b : Block) : P b := by
  induction h : tree.nHeight b using Nat.strong_induction_on generalizing b with
  | _ n ih =>
    by_cases hb : b = tree.genesis
    · rwa [hb]
    · obtain ⟨p, hp⟩ := pprev_isSome_of_ne hb
      have hheight := tree.nHeight_pprev b p hp
      exact hpprev b p hp (ih (tree.nHeight p) (by omega) p rfl)

theorem ne_genesis_of_pprev {p : Block} (h : tree.pprev b = some p) : b ≠ tree.genesis := by
  rintro rfl
  rw [tree.pprev_genesis] at h
  cases h

theorem genesis_mem_ancestors (b : Block) : tree.genesis ∈ tree.ancestors b := by
  induction b using induction_pprev tree with
  | hgenesis => exact self_mem_ancestors _
  | hpprev b p hp ih => exact (mem_ancestors_of_pprev hp).mpr (Or.inr ih)

theorem ancestors_trans {a b c : Block} (hab : a ∈ tree.ancestors b) (hbc : b ∈ tree.ancestors c) :
    a ∈ tree.ancestors c := by
  induction c using induction_pprev tree with
  | hgenesis =>
    rw [ancestors_genesis, List.mem_singleton] at hbc
    rwa [← hbc]
  | hpprev c p hp ih =>
    rw [mem_ancestors_of_pprev hp] at hbc ⊢
    rcases hbc with rfl | hbp
    · exact (mem_ancestors_of_pprev hp).mp hab
    · exact Or.inr (ih hbp)

theorem forall_ancestors {P : Block → Prop} (hpprev : ∀ b p, tree.pprev b = some p → P b → P p) {b : Block}
    (hb : P b) : ∀ a ∈ tree.ancestors b, P a := by
  induction b using induction_pprev tree with
  | hgenesis =>
    intro a ha
    rw [ancestors_genesis, List.mem_singleton] at ha
    rwa [ha]
  | hpprev b p hp ih =>
    intro a ha
    rcases (mem_ancestors_of_pprev hp).mp ha with rfl | hap
    · exact hb
    · exact ih (hpprev b p hp hb) a hap

theorem pprev_mem_ancestors {b p : Block} (h : tree.pprev b = some p) : p ∈ tree.ancestors b :=
  (mem_ancestors_of_pprev h).mpr (Or.inr (self_mem_ancestors p))

theorem lt_of_mem_ancestors (h : a ∈ tree.ancestors b) (hne : a ≠ b) :
    tree.nHeight a < tree.nHeight b ∧ tree.nChainWork a < tree.nChainWork b := by
  induction b using induction_pprev tree with
  | hgenesis =>
    rw [ancestors_genesis, List.mem_singleton] at h
    exact absurd h hne
  | hpprev b p hp ih =>
    have hheight := tree.nHeight_pprev b p hp
    have hwork := tree.nChainWork_pprev b p hp
    have hmem := ((mem_ancestors_of_pprev hp).mp h).resolve_left hne
    by_cases hap : a = p
    · rw [hap]
      omega
    · have hlt := ih hmem hap
      omega

theorem getAncestor_eq_some_iff : tree.getAncestor b (tree.nHeight a) = some a ↔ a ∈ tree.ancestors b := by
  constructor
  · intro h
    exact List.mem_of_find?_eq_some h
  · intro h
    induction b using induction_pprev tree with
    | hgenesis =>
      rw [ancestors_genesis, List.mem_singleton] at h
      rw [h, getAncestor, ancestors_genesis]
      simp
    | hpprev b p hp ih =>
      by_cases hab : a = b
      · rw [hab, getAncestor, ancestors_of_pprev hp]
        simp
      · have hlt := (lt_of_mem_ancestors h hab).1
        have hne : ¬ tree.nHeight b = tree.nHeight a := by omega
        have hrest := ih (((mem_ancestors_of_pprev hp).mp h).resolve_left hab)
        rw [getAncestor] at hrest ⊢
        rw [ancestors_of_pprev hp]
        simpa [hne] using hrest

end BlockTree

variable {Block : Type} [LinearOrder Block] {tree : BlockTree Block}

namespace Chainstate

def rank (tree : BlockTree Block) (s : Chainstate Block) (b : Block) : Nat ×ₗ (Intᵒᵈ ×ₗ Blockᵒᵈ) :=
  toLex (tree.nChainWork b, toLex (toDual (s.entry b).nSequenceId, toDual b))

variable {s : Chainstate Block} {a b : Block}

theorem workLess_iff : s.workLess tree a b = true ↔ s.rank tree a < s.rank tree b := by
  simp only [workLess, rank, Prod.Lex.toLex_lt_toLex]
  rcases lt_trichotomy (tree.nChainWork a) (tree.nChainWork b) with hwork | hwork | hwork
  · simp [hwork, hwork.not_gt]
  · rcases lt_trichotomy (s.entry a).nSequenceId (s.entry b).nSequenceId with hseq | hseq | hseq
    · simp [hwork, hseq, hseq.not_gt, hseq.ne]
    · rcases lt_trichotomy a b with hab | hab | hab
      · simp [hwork, hseq, hab.not_gt]
      · simp [hab]
      · simp [hwork, hseq, hab.not_gt]
    · simp [hwork, hseq, hseq.not_gt]
  · simp [hwork, hwork.not_gt, hwork.ne']

theorem workLess_eq_false_iff : s.workLess tree a b = false ↔ s.rank tree b ≤ s.rank tree a := by
  rw [← Bool.not_eq_true, workLess_iff, not_lt]

omit [LinearOrder Block] in
theorem rank_injective : Function.Injective (s.rank tree) := by
  intro a b h
  exact toDual.injective (Prod.mk.inj (toLex.injective (Prod.mk.inj (toLex.injective h)).2)).2

theorem work_le_of_rank_le (h : s.rank tree a ≤ s.rank tree b) : tree.nChainWork a ≤ tree.nChainWork b := by
  rw [rank, rank, Prod.Lex.toLex_le_toLex] at h
  omega

theorem rank_lt_of_work_lt (h : tree.nChainWork a < tree.nChainWork b) : s.rank tree a < s.rank tree b := by
  rw [rank, rank, Prod.Lex.toLex_lt_toLex]
  exact Or.inl h

theorem rank_le_of_mem_ancestors (h : a ∈ tree.ancestors b) : s.rank tree a ≤ s.rank tree b := by
  by_cases hab : a = b
  · rw [hab]
  · exact (rank_lt_of_work_lt (lt_of_mem_ancestors h hab).2).le

theorem entry_modifyEntry_self (f : Entry → Entry) : (s.modifyEntry b f).entry b = f (s.entry b) :=
  Function.update_self ..

theorem entry_modifyEntry_of_ne (f : Entry → Entry) (h : a ≠ b) : (s.modifyEntry b f).entry a = s.entry a :=
  Function.update_of_ne h ..

theorem modifyEntry_same {α : Type} {f : Entry → Entry} (g : Entry → α) (hg : g (f (s.entry b)) = g (s.entry b))
    (c : Block) : g ((s.modifyEntry b f).entry c) = g (s.entry c) := by
  by_cases hc : c = b
  · rw [hc, entry_modifyEntry_self, hg]
  · rw [entry_modifyEntry_of_ne f hc]

end Chainstate

open Chainstate

def Entry.unmarked (e : Entry) : Entry := { e with failedValid := false, failedChild := false }

def MarksOnly (f : Entry → Entry) : Prop := ∀ e, (f e).unmarked = e.unmarked

theorem MarksOnly.setFailedValid : MarksOnly fun e => { e with failedValid := true } := fun _ => rfl

theorem MarksOnly.setFailedChild : MarksOnly fun e => { e with failedChild := true } := fun _ => rfl

theorem MarksOnly.unmark : MarksOnly fun e => { e with failedValid := false, failedChild := false } := fun _ => rfl

theorem MarksOnly.failChild : MarksOnly Entry.failChild := fun _ => rfl

/-- The states have the same data and links, and rank blocks alike. -/
structure SameData (s t : Chainstate Block) : Prop where
  index : t.index = s.index
  blocksUnlinked : t.blocksUnlinked = s.blocksUnlinked
  entry : ∀ b, (t.entry b).unmarked = (s.entry b).unmarked

variable {s t : Chainstate Block} {b c x : Block}

namespace SameData

section
omit [LinearOrder Block]

theorem of_entry (hindex : t.index = s.index) (hunlinked : t.blocksUnlinked = s.blocksUnlinked)
    (hentry : t.entry = s.entry) : SameData s t := ⟨hindex, hunlinked, fun _ => by rw [hentry]⟩

theorem trans {u : Chainstate Block} (h : SameData s t) (h' : SameData t u) : SameData s u :=
  ⟨h'.index.trans h.index, h'.blocksUnlinked.trans h.blocksUnlinked, fun b => (h'.entry b).trans (h.entry b)⟩

variable (h : SameData s t)
include h

theorem congr {α : Type} (g : Entry → α) (hg : ∀ e, g e.unmarked = g e) (b : Block) : g (t.entry b) = g (s.entry b) := by
  rw [← hg, h.entry, hg]

theorem validTransactions (b : Block) : (t.entry b).validTransactions = (s.entry b).validTransactions :=
  h.congr Entry.validTransactions (fun _ => rfl) b

theorem haveData (b : Block) : t.haveData b = s.haveData b := h.congr Entry.haveData (fun _ => rfl) b

theorem linked (b : Block) : t.linked b = s.linked b := h.congr Entry.haveNumChainTxs (fun _ => rfl) b

theorem rank : t.rank tree = s.rank tree := by
  funext b
  rw [Chainstate.rank, h.congr Entry.nSequenceId (fun _ => rfl), Chainstate.rank]
end

theorem modifyEntry {f : Entry → Entry} (hf : MarksOnly f) (s : Chainstate Block) (b : Block) :
    SameData s (s.modifyEntry b f) := ⟨rfl, rfl, modifyEntry_same _ (hf _)⟩

theorem modifyEntries {f : Entry → Entry} (hf : MarksOnly f) (s : Chainstate Block) (p : Block → Bool) :
    SameData s (s.modifyEntries p f) := by
  refine ⟨rfl, rfl, fun b => ?_⟩
  rw [Chainstate.modifyEntries]
  dsimp only
  split
  · rw [hf]
  · rfl

theorem foldl_insertCandidate (l : List Block) (s : Chainstate Block) : SameData s (l.foldl insertCandidate s) := by
  induction l generalizing s with
  | nil => exact of_entry rfl rfl rfl
  | cons b l ih => exact (of_entry rfl rfl rfl : SameData s (s.insertCandidate b)).trans (ih _)

end SameData

@[simp] theorem failed_failChild (e : Entry) : e.failChild.failed = true := by
  simp [Entry.failed, Entry.failChild]

theorem failed_modifyEntry (f : Entry → Entry) :
    (s.modifyEntry x f).failed b = if b = x then (f (s.entry x)).failed else s.failed b := by
  by_cases hb : b = x
  · simp [hb, failed, entry_modifyEntry_self]
  · simp [hb, failed, entry_modifyEntry_of_ne f hb]

theorem failed_modifyEntries (p : Block → Bool) (f : Entry → Entry) :
    (s.modifyEntries p f).failed b = if b ∈ s.index ∧ p b = true then (f (s.entry b)).failed else s.failed b := by
  rw [failed, modifyEntries]
  dsimp only
  split <;> rfl

theorem failed_setBlockFailureFlags : (s.setBlockFailureFlags tree x).failed b = true ↔
      s.failed b = true ∨ (b ∈ s.index ∧ b ≠ x ∧ x ∈ tree.ancestors b) := by
  rw [setBlockFailureFlags, failed_modifyEntries]
  simp only [getAncestor_eq_some_iff, decide_eq_true_eq]
  split <;> rename_i h <;> simp [h]

theorem failed_invalidBlockFound (hx : x ∈ s.index) :
    (s.invalidBlockFound tree x).failed b = true ↔ s.failed b = true ∨ (b ∈ s.index ∧ x ∈ tree.ancestors b) := by
  rw [invalidBlockFound, invalidChainFound, failed_setBlockFailureFlags]
  change (s.modifyEntry x fun e => { e with failedValid := true }).failed b = true ∨ _ ↔ _
  rw [failed_modifyEntry]
  by_cases hb : b = x
  · subst hb
    simp [Entry.failed, hx]
  · simp only [ne_eq, hb, not_false_eq_true, true_and]
    rfl

theorem eq_false_of_imp {p q : Bool} (h : p = true → q = true) (hq : q = false) : p = false :=
  Bool.eq_false_iff.mpr (mt h (Bool.eq_false_iff.mp hq))

/-- The data of blocks and their links, where the blocks of a queue can be linked and
all others with data wait for a block that cannot. -/
structure Stored (tree : BlockTree Block) (queue : List Block) (s : Chainstate Block) : Prop where
  index_pprev : ∀ b ∈ s.index, ∀ p, tree.pprev b = some p → p ∈ s.index
  haveData_index : ∀ b, s.haveData b = true → b ∈ s.index
  haveData_valid : ∀ b, s.haveData b = true → (s.entry b).validTransactions = true
  linked_haveData : ∀ b, s.linked b = true → s.haveData b = true
  linked_pprev : ∀ b p, s.linked b = true → tree.pprev b = some p → s.linked p = true
  linked_genesis : s.linked tree.genesis = true
  waits : ∀ b, s.haveData b = true → s.linked b = false →
    b ∈ queue ∨ ∃ p, tree.pprev b = some p ∧ s.linked p = false ∧ (p, b) ∈ s.blocksUnlinked
  unlinked : ∀ e ∈ s.blocksUnlinked, tree.pprev e.2 = some e.1 ∧ s.haveData e.2 = true ∧ s.linked e.2 = false
  nodup : (queue ++ s.blocksUnlinked.map Prod.snd).Nodup
  queued : ∀ b ∈ queue, s.haveData b = true ∧ s.linked b = false ∧ ∀ p, tree.pprev b = some p → s.linked p = true

structure Active (tree : BlockTree Block) (s : Chainstate Block) : Prop where
  linked : s.linked s.tip = true
  failed : s.failed s.tip = false
  connects : ∀ a ∈ tree.ancestors s.tip, tree.connectBlock a = true

/-- A candidate that connects and is not worse than the tip, such that no better block
is missing from the candidates. -/
structure Anchor (tree : BlockTree Block) (s : Chainstate Block) (c : Block) : Prop where
  mem : c ∈ s.candidates
  failed : s.failed c = false
  connects : ∀ a ∈ tree.ancestors c, tree.connectBlock a = true
  tip_le : s.rank tree s.tip ≤ s.rank tree c
  complete : ∀ b, s.linked b = true → s.failed b = false → s.rank tree c ≤ s.rank tree b → b ∈ s.candidates

def Inherited (tree : BlockTree Block) (s : Chainstate Block) : Prop :=
  ∀ b ∈ s.index, ∀ p, tree.pprev b = some p → s.failed p = true → s.failed b = true

/-- What holds between steps, with an empty queue. -/
structure Inv (tree : BlockTree Block) (queue : List Block) (s : Chainstate Block) : Prop where
  stored : Stored tree queue s
  inherited : Inherited tree s
  active : Active tree s
  candidates : ∀ b ∈ s.candidates, s.linked b = true
  anchored : ∃ c, Anchor tree s c

section
variable {queue : List Block}

section
omit [LinearOrder Block]

theorem Stored.of_sameData (h : Stored tree queue s) (hsame : SameData s t) : Stored tree queue t := by
  have hdata := hsame.haveData
  have hlinked := hsame.linked
  constructor
  · simpa only [hsame.index] using h.index_pprev
  · simpa only [hsame.index, hdata] using h.haveData_index
  · simpa only [hsame.validTransactions, hdata] using h.haveData_valid
  · simpa only [hlinked, hdata] using h.linked_haveData
  · simpa only [hlinked] using h.linked_pprev
  · simpa only [hlinked] using h.linked_genesis
  · simpa only [hlinked, hdata, hsame.blocksUnlinked] using h.waits
  · simpa only [hlinked, hdata, hsame.blocksUnlinked] using h.unlinked
  · simpa only [hsame.blocksUnlinked] using h.nodup
  · simpa only [hlinked, hdata] using h.queued

theorem Stored.linked_ancestors (h : Stored tree queue s) (hb : s.linked b = true) :
    ∀ a ∈ tree.ancestors b, s.linked a = true :=
  forall_ancestors (fun b p hp hlinked => h.linked_pprev b p hlinked hp) hb

/-- A block is linked as soon as it and its ancestors have their data. -/
theorem Stored.linked_of_haveData (h : Stored tree [] s) (hb : ∀ a ∈ tree.ancestors b, s.haveData a = true) :
    s.linked b = true := by
  induction b using induction_pprev tree with
  | hgenesis => exact h.linked_genesis
  | hpprev b p hp ih =>
    have hparent := ih fun a ha => hb a ((mem_ancestors_of_pprev hp).mpr (Or.inr ha))
    by_contra hnot
    rw [Bool.not_eq_true] at hnot
    rcases h.waits b (hb b (self_mem_ancestors b)) hnot with hq | ⟨q, hq, hunlinked, -⟩
    · cases hq
    · obtain rfl := Option.some.inj (hp.symm.trans hq)
      rw [hparent] at hunlinked
      cases hunlinked

theorem Stored.linked_index (h : Stored tree queue s) (hb : s.linked b = true) : b ∈ s.index :=
  h.haveData_index b (h.linked_haveData b hb)

theorem Inherited.not_failed (h : Inherited tree s) (hs : Stored tree queue s) (hb : b ∈ s.index)
    (hf : s.failed b = false) : ∀ a ∈ tree.ancestors b, a ∈ s.index ∧ s.failed a = false := by
  refine forall_ancestors (fun b p hp hbad => ?_) ⟨hb, hf⟩
  exact ⟨hs.index_pprev b hbad.1 p hp, eq_false_of_imp (h b hbad.1 p hp) hbad.2⟩

theorem Inherited.of_failed_above (h : Inherited tree s) (hindex : t.index = s.index)
    (hfailed : ∀ b, t.failed b = true ↔ s.failed b = true ∨ (b ∈ s.index ∧ x ∈ tree.ancestors b)) :
    Inherited tree t := by
  intro b hb p hp hf
  rw [hindex] at hb
  rw [hfailed] at hf ⊢
  rcases hf with hf | ⟨-, hxp⟩
  · exact Or.inl (h b hb p hp hf)
  · exact Or.inr ⟨hb, ancestors_trans hxp (pprev_mem_ancestors hp)⟩

theorem Inherited.congr (h : Inherited tree s) (hindex : t.index = s.index) (hfailed : ∀ b, t.failed b = s.failed b) :
    Inherited tree t := by
  intro b hb p hp
  rw [hindex] at hb
  rw [hfailed, hfailed]
  exact h b hb p hp
end

section
variable (h : Inv tree queue s)
include h

/-- What a step that leaves the tip has to respect. -/
theorem Inv.transfer {queue' : List Block} (hstored : Stored tree queue' t)
    (hinherited : Inherited tree t) (htip : t.tip = s.tip) (hlinked : ∀ c, s.linked c = true → t.linked c = true)
    (hfailed : t.failed s.tip = false) (hanchor : ∀ c, Anchor tree s c → t.failed c = false)
    (hrank : ∀ c, s.linked c = true → t.rank tree c = s.rank tree c)
    (hcandidates : ∀ c ∈ t.candidates, t.linked c = true)
    (hkeep : ∀ c ∈ s.candidates, t.failed c = false → c ∈ t.candidates)
    (hcomplete : ∀ c, t.linked c = true → t.failed c = false → s.rank tree s.tip ≤ t.rank tree c →
      c ∈ t.candidates ∨ s.linked c = true ∧ s.failed c = false) : Inv tree queue' t where
  stored := hstored
  inherited := hinherited
  active := by
    refine ⟨?_, ?_, ?_⟩ <;> rw [htip]
    · exact hlinked _ h.active.linked
    · exact hfailed
    · exact h.active.connects
  candidates := hcandidates
  anchored := by
    obtain ⟨a, ha⟩ := h.anchored
    have harank := hrank a (h.candidates a ha.mem)
    refine ⟨a, hkeep a ha.mem (hanchor a ha), hanchor a ha, ha.connects, ?_, fun c hc hcf hle => ?_⟩
    · rw [htip, hrank s.tip h.active.linked, harank]
      exact ha.tip_le
    · rw [harank] at hle
      rcases hcomplete c hc hcf (ha.tip_le.trans hle) with hmem | ⟨hcl, hcs⟩
      · exact hmem
      · rw [hrank c hcl] at hle
        exact hkeep c (ha.complete c hcl hcs hle) hcf

theorem Inv.mark (hsame : SameData s t) (htip : t.tip = s.tip) (hinherited : Inherited tree t)
    (hgrow : ∀ b, s.failed b = true → t.failed b = true) (hfailed : t.failed s.tip = false)
    (hanchor : ∀ c, Anchor tree s c → t.failed c = false) (hsub : ∀ b ∈ t.candidates, b ∈ s.candidates)
    (hkeep : ∀ b ∈ s.candidates, t.failed b = false → b ∈ t.candidates) : Inv tree queue t := by
  refine h.transfer (h.stored.of_sameData hsame) hinherited htip (fun c hc => ?_) hfailed hanchor
    (fun c _ => congrFun hsame.rank c) (fun c hc => ?_) hkeep fun c hc hcf _ => Or.inr ?_
  · rwa [hsame.linked]
  · rw [hsame.linked]
    exact h.candidates c (hsub c hc)
  · rw [hsame.linked] at hc
    exact ⟨hc, eq_false_of_imp (hgrow c) hcf⟩

theorem Inv.invalidChainFound (htip : x ∉ tree.ancestors s.tip)
    (hanchor : ∀ c, Anchor tree s c → x ∉ tree.ancestors c) : Inv tree queue (s.invalidChainFound tree x) := by
  have hnot : ∀ b, x ∉ tree.ancestors b → s.failed b = false → (s.invalidChainFound tree x).failed b = false := by
    intro b hb hf
    rw [← Bool.not_eq_true, Chainstate.invalidChainFound, failed_setBlockFailureFlags, not_or, Bool.not_eq_true]
    exact ⟨hf, fun hmark => hb hmark.2.2⟩
  refine h.mark (SameData.modifyEntries MarksOnly.failChild s _) rfl ?_ ?_ (hnot _ htip h.active.failed)
    (fun c hc => hnot c (hanchor c hc) hc.failed) (fun _ hb => hb) fun _ hb _ => hb
  · intro b hb p hp hf
    rw [Chainstate.invalidChainFound, failed_setBlockFailureFlags] at hf ⊢
    rcases hf with hf | ⟨-, hpx, hxp⟩
    · exact Or.inl (h.inherited b hb p hp hf)
    · refine Or.inr ⟨hb, ?_, ancestors_trans hxp (pprev_mem_ancestors hp)⟩
      rintro rfl
      have hlow := (lt_of_mem_ancestors hxp (Ne.symm hpx)).1
      have hheight := tree.nHeight_pprev b p hp
      omega
  · intro b hb
    rw [Chainstate.invalidChainFound, failed_setBlockFailureFlags]
    exact Or.inl hb

omit h in
theorem invalidBlockFound_sameData : SameData s (s.invalidBlockFound tree x) := by
  have herase : ∀ u : Chainstate Block, SameData u (u.eraseCandidate x) := fun _ => SameData.of_entry rfl rfl rfl
  exact ((SameData.modifyEntry MarksOnly.setFailedValid s x).trans (herase _)).trans
    (SameData.modifyEntries MarksOnly.failChild _ _)

theorem Inv.invalidBlockFound (hx : x ∈ s.index) (htip : x ∉ tree.ancestors s.tip)
    (hanchor : ∀ c, Anchor tree s c → x ∉ tree.ancestors c) : Inv tree queue (s.invalidBlockFound tree x) := by
  have hnot : ∀ b, x ∉ tree.ancestors b → s.failed b = false → (s.invalidBlockFound tree x).failed b = false := by
    intro b hb hf
    rw [← Bool.not_eq_true, failed_invalidBlockFound hx, not_or, Bool.not_eq_true]
    exact ⟨hf, fun hmark => hb hmark.2⟩
  refine h.mark invalidBlockFound_sameData rfl (h.inherited.of_failed_above rfl fun _ => failed_invalidBlockFound hx) ?_
    (hnot _ htip h.active.failed) (fun c hc => hnot c (hanchor c hc) hc.failed) ?_ ?_
  · intro b hb
    rw [failed_invalidBlockFound hx]
    exact Or.inl hb
  · intro b hb
    exact (List.mem_filter.mp hb).1
  · intro b hb hf
    refine List.mem_filter.mpr ⟨hb, ?_⟩
    rw [decide_eq_true_eq]
    rintro rfl
    rw [← Bool.not_eq_true, failed_invalidBlockFound hx] at hf
    exact hf (Or.inr ⟨hx, self_mem_ancestors b⟩)

theorem Inv.of_entry (hindex : t.index = s.index) (hunlinked : t.blocksUnlinked = s.blocksUnlinked)
    (hentry : t.entry = s.entry) (hactive : Active tree t) (hcandidates : ∀ b ∈ t.candidates, t.linked b = true)
    (hanchored : ∃ c, Anchor tree t c) : Inv tree queue t where
  stored := h.stored.of_sameData (SameData.of_entry hindex hunlinked hentry)
  inherited := h.inherited.congr hindex fun _ => by rw [failed, failed, hentry]
  active := hactive
  candidates := hcandidates
  anchored := hanchored

theorem Inv.withFaults (faults : List Bool) : Inv tree queue { s with faults := faults } := by
  obtain ⟨c, hc⟩ := h.anchored
  exact h.of_entry rfl rfl rfl ⟨h.active.linked, h.active.failed, h.active.connects⟩ h.candidates
    ⟨c, hc.mem, hc.failed, hc.connects, hc.tip_le, hc.complete⟩

theorem Inv.candidates_ne_nil : s.candidates ≠ [] := by
  obtain ⟨c, hc⟩ := h.anchored
  exact List.ne_nil_of_mem hc.mem

theorem Inv.disconnect {p : Block} (hp : tree.pprev s.tip = some p) : Inv tree queue { s with tip := p } := by
  have hmem := pprev_mem_ancestors hp
  have htip := h.inherited.not_failed h.stored (h.stored.linked_index h.active.linked) h.active.failed p hmem
  refine h.of_entry rfl rfl rfl ⟨h.stored.linked_pprev _ p h.active.linked hp, htip.2, ?_⟩ h.candidates ?_
  · exact fun a ha => h.active.connects a (ancestors_trans ha hmem)
  · obtain ⟨c, hc⟩ := h.anchored
    exact ⟨c, hc.mem, hc.failed, hc.connects, (rank_le_of_mem_ancestors hmem).trans hc.tip_le, hc.complete⟩

theorem Inv.connect (hp : tree.pprev x = some s.tip) (hlinked : s.linked x = true)
    (hfailed : s.failed x = false) (hconnects : tree.connectBlock x = true) : Inv tree queue { s with tip := x } := by
  have hall : ∀ a ∈ tree.ancestors x, tree.connectBlock a = true := by
    intro a ha
    rcases (mem_ancestors_of_pprev hp).mp ha with rfl | hap
    · exact hconnects
    · exact h.active.connects a hap
  refine h.of_entry rfl rfl rfl ⟨hlinked, hfailed, hall⟩ h.candidates ?_
  obtain ⟨c, hc⟩ := h.anchored
  rcases le_total (s.rank tree x) (s.rank tree c) with hle | hle
  · exact ⟨c, hc.mem, hc.failed, hc.connects, hle, hc.complete⟩
  · exact ⟨x, hc.complete x hlinked hfailed hle, hfailed, hall, le_rfl, fun b hb hf hxb =>
      hc.complete b hb hf (hle.trans hxb)⟩

theorem Inv.prune :
    Inv tree queue { s with candidates := s.candidates.filter fun b => !s.workLess tree b s.tip } := by
  obtain ⟨c, hc⟩ := h.anchored
  have hkeep : ∀ b ∈ s.candidates, s.rank tree c ≤ s.rank tree b →
      b ∈ s.candidates.filter fun b => !s.workLess tree b s.tip := by
    intro b hb hle
    rw [List.mem_filter, Bool.not_eq_true', workLess_eq_false_iff]
    exact ⟨hb, hc.tip_le.trans hle⟩
  refine h.of_entry rfl rfl rfl ⟨h.active.linked, h.active.failed, h.active.connects⟩
    (fun b hb => h.candidates b (List.mem_filter.mp hb).1)
    ⟨c, hkeep c hc.mem le_rfl, hc.failed, hc.connects, hc.tip_le, ?_⟩
  exact fun b hb hf hle => hkeep b (hc.complete b hb hf hle) hle
end
end

end Byze.ChainSelection
