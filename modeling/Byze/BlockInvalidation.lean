import Byze.MostWork

/-! The invalidation of a block, and what holds after any steps. -/

namespace Byze.ChainSelection
open StateWp Chainstate ChainSelection.BlockTree
variable {Block : Type} [LinearOrder Block] {tree : BlockTree Block} {s t : Chainstate Block} {b c x : Block}

theorem Inv.of_failed_above (h : Inv tree [] s) (hsame : SameData s t) (htip : t.tip = s.tip)
    (hfailed : ∀ b, t.failed b = true ↔ s.failed b = true ∨ (b ∈ s.index ∧ x ∈ tree.ancestors b))
    (hx : x ∉ tree.ancestors s.tip) (hcandidates : ∀ b ∈ t.candidates, s.linked b = true)
    (hcomplete : ∀ b, s.linked b = true → t.failed b = false → s.rank tree s.tip ≤ s.rank tree b →
      b ∈ t.candidates) : Inv tree [] t := by
  have hunmarked : t.failed s.tip = false := by
    rw [← Bool.not_eq_true, hfailed, h.active.failed]
    simp [hx]
  refine ⟨h.stored.of_sameData hsame, h.inherited.of_failed_above hsame.index hfailed, ⟨?_, htip ▸ hunmarked, htip ▸ h.active.connects⟩, ?_, s.tip,
    hcomplete s.tip h.active.linked hunmarked le_rfl, hunmarked, h.active.connects, by rw [htip], ?_⟩
  · rw [htip, hsame.linked]
    exact h.active.linked
  · intro b hb
    rw [hsame.linked]
    exact hcandidates b hb
  · intro b hb hf hle
    rw [hsame.linked] at hb
    rw [hsame.rank] at hle
    exact hcomplete b hb hf hle

section
variable {walk prev toMark : Block} {headers : List Block}

theorem markDisconnected_spec : SameData s (markDisconnected tree walk prev toMark s) ∧
    (markDisconnected tree walk prev toMark s).tip = s.tip ∧
    (∀ b, b ∈ (markDisconnected tree walk prev toMark s).candidates ↔ b = prev ∨ (b ∈ s.candidates ∧ b ≠ walk)) ∧
    ∀ b, (markDisconnected tree walk prev toMark s).failed b = true ↔ s.failed b = true ∨ b = walk := by
  set u := ((s.modifyEntry walk fun e => { e with failedValid := true }).eraseCandidate walk).insertCandidate prev
  have hu : SameData s u :=
    (SameData.modifyEntry MarksOnly.setFailedValid s walk).trans (SameData.of_entry rfl rfl rfl)
  have hcandidates : ∀ b, b ∈ u.candidates ↔ b = prev ∨ (b ∈ s.candidates ∧ b ≠ walk) := by
    intro b
    simp [u, insertCandidate, eraseCandidate, modifyEntry]
  have hfailed : ∀ b, u.failed b = true ↔ s.failed b = true ∨ b = walk := by
    intro b
    change (s.modifyEntry walk fun e => { e with failedValid := true }).failed b = true ↔ _
    rw [failed_modifyEntry]
    by_cases hb : b = walk
    · simp [hb, Entry.failed]
    · simp [hb]
  rw [markDisconnected]
  split
  · rename_i hmark
    refine ⟨hu.trans (SameData.modifyEntry MarksOnly.failChild u toMark), rfl, hcandidates, fun b => ?_⟩
    rw [← hfailed, failed_modifyEntry]
    by_cases hb : b = toMark
    · have hmarked : u.failed toMark = true := by
        rw [failed, Entry.failed, hmark.2]
        rfl
      simp [hb, hmarked]
    · rw [if_neg hb]
  · exact ⟨hu, rfl, hcandidates, hfailed⟩

theorem markOutOfChain_spec : SameData s (markOutOfChain tree walk prev headers s) ∧
    (markOutOfChain tree walk prev headers s).tip = s.tip ∧
    (∀ b, (markOutOfChain tree walk prev headers s).failed b = true ↔ s.failed b = true ∨
      (b ∈ s.index ∧ b ∈ headers ∧ tree.nChainWork prev ≤ tree.nChainWork b ∧ walk ∈ tree.ancestors b)) ∧
    ∀ b, b ∈ (markOutOfChain tree walk prev headers s).candidates ↔ b ∈ s.candidates ∨
      (b ∈ headers ∧ walk ∉ tree.ancestors b ∧ s.rank tree prev ≤ s.rank tree b ∧ s.failed b = false ∧
        (s.entry b).validTransactions = true ∧ s.linked b = true) := by
  set high := headers.filter fun b => tree.nChainWork prev ≤ tree.nChainWork b
  set u := s.modifyEntries
    (fun b => b ∈ high ∧ tree.getAncestor b (tree.nHeight walk) = some walk) Entry.failChild
  have hu : SameData s u := SameData.modifyEntries MarksOnly.failChild s _
  have hfailed : ∀ b, u.failed b = true ↔ s.failed b = true ∨
      (b ∈ s.index ∧ b ∈ headers ∧ tree.nChainWork prev ≤ tree.nChainWork b ∧ walk ∈ tree.ancestors b) := by
    intro b
    rw [failed_modifyEntries]
    simp only [getAncestor_eq_some_iff, decide_eq_true_eq, high, List.mem_filter, and_assoc]
    split <;> rename_i hb <;> simp [hb]
  refine ⟨hu.trans (SameData.foldl_insertCandidate _ _), (foldl_insertCandidate_frame _).2.2, fun b => ?_, fun b => ?_⟩
  · rw [← hfailed, failed, markOutOfChain, (foldl_insertCandidate_frame _).1, failed]
  · rw [markOutOfChain, mem_foldl_insertCandidate, or_comm]
    refine or_congr Iff.rfl ?_
    change b ∈ high.filter (fun b => decide (¬ tree.getAncestor b (tree.nHeight walk) = some walk ∧
      ¬ u.workLess tree b prev = true ∧ (u.entry b).isValidTransactions = true ∧ u.linked b = true)) ↔ _
    rw [List.mem_filter, List.mem_filter, decide_eq_true_eq, decide_eq_true_eq, getAncestor_eq_some_iff,
      Bool.not_eq_true, workLess_eq_false_iff, hu.rank, hu.linked, Entry.isValidTransactions, hu.validTransactions,
      Bool.and_eq_true, Bool.not_eq_true', and_assoc]
    change b ∈ headers ∧ _ ∧ _ ∧ _ ∧ (u.failed b = false ∧ _) ∧ _ ↔ _
    constructor
    · rintro ⟨hb, -, hwalk, hrank, ⟨hf, hvalid⟩, hlinked⟩
      exact ⟨hb, hwalk, hrank, eq_false_of_imp (fun hold => (hfailed b).mpr (Or.inl hold)) hf, hvalid, hlinked⟩
    · rintro ⟨hb, hwalk, hrank, hf, hvalid, hlinked⟩
      refine ⟨hb, work_le_of_rank_le hrank, hwalk, hrank, ⟨?_, hvalid⟩, hlinked⟩
      rw [← Bool.not_eq_true, hfailed, hf]
      simp [hwalk]
end

/-- The state of the loop: the headers have every block outside of the active chain
that could be better than the parent of the block to be invalidated. -/
structure Invalidating (tree : BlockTree Block) (pindex pprev toMark : Block) (headers : List Block)
    (wasInChain : Bool) (s : Chainstate Block) : Prop where
  inv : Inv tree [] s
  headers : ∀ b ∈ s.index, b ∉ tree.ancestors s.tip → s.failed b = false → s.rank tree pprev ≤ s.rank tree b →
    b ∈ headers
  toMark_index : toMark ∈ s.index
  toMark_eq : wasInChain = false → toMark = pindex
  toMark_failed : wasInChain = true → s.failed toMark = true

section
variable {pindex pprev toMark : Block} {headers : List Block} {wasInChain : Bool}

theorem nHeight_le_of_mem_ancestors {a : Block} (h : a ∈ tree.ancestors b) : tree.nHeight a ≤ tree.nHeight b := by
  by_cases hab : a = b
  · rw [hab]
  · exact (lt_of_mem_ancestors h hab).1.le

section
variable (h : Invalidating tree pindex pprev toMark headers wasInChain s)
include h

/-- One round: the tip is disconnected and marked, with everything above it. -/
theorem Invalidating.round (hpprev : tree.pprev pindex = some pprev)
    (hin : pindex ∈ tree.ancestors s.tip) (ht : Keeps tree s t)
    (hprev : tree.pprev s.tip = some t.tip) :
    Invalidating tree pindex pprev s.tip
      (headers.filter fun b => ¬ (tree.nChainWork t.tip ≤ tree.nChainWork b ∧
        tree.getAncestor b (tree.nHeight s.tip) = some s.tip)) true
      (markOutOfChain tree s.tip t.tip headers (markDisconnected tree s.tip t.tip toMark t)) := by
  obtain ⟨hinv, hentry, hindex⟩ := ht
  obtain ⟨hsame₁, htip₁, hcand₁, hfailed₁⟩ := @markDisconnected_spec _ _ tree t s.tip t.tip toMark
  obtain ⟨hsame₂, htip₂, hfailed₂, hcand₂⟩ :=
    @markOutOfChain_spec _ _ tree (markDisconnected tree s.tip t.tip toMark t) s.tip t.tip headers
  set u := markOutOfChain tree s.tip t.tip headers (markDisconnected tree s.tip t.tip toMark t)
  have hsame : SameData t u := hsame₁.trans hsame₂
  have htip : u.tip = t.tip := htip₂.trans htip₁
  have hf : ∀ b, t.failed b = s.failed b := fun b => by simp [failed, hentry]
  have hr : t.rank tree = s.rank tree := funext fun b => by simp [rank, hentry]
  have hheight := tree.nHeight_pprev _ _ hprev
  have hwalk : s.tip ∉ tree.ancestors t.tip := by
    intro hmem
    have hle := nHeight_le_of_mem_ancestors hmem
    omega
  have hwalkIndex : s.tip ∈ s.index := h.inv.stored.linked_index h.inv.active.linked
  have hbelow : pprev ∈ tree.ancestors t.tip := by
    rcases (mem_ancestors_of_pprev hprev).mp hin with heq | hmem
    · rw [heq, hprev] at hpprev
      rw [← Option.some.inj hpprev]
      exact self_mem_ancestors _
    · exact ancestors_trans (pprev_mem_ancestors hpprev) hmem
  have hout : ∀ b, b ∉ tree.ancestors t.tip → b ≠ s.tip → b ∉ tree.ancestors s.tip := fun b hb hne hmem =>
    hb (((mem_ancestors_of_pprev hprev).mp hmem).resolve_left hne)
  have hfailed : ∀ b, u.failed b = true ↔ t.failed b = true ∨ (b ∈ t.index ∧ s.tip ∈ tree.ancestors b) := by
    intro b
    rw [hfailed₂, hfailed₁, hsame₁.index]
    constructor
    · rintro ((hb | rfl) | ⟨hb, -, -, hmem⟩)
      · exact Or.inl hb
      · exact Or.inr ⟨hindex ▸ hwalkIndex, self_mem_ancestors _⟩
      · exact Or.inr ⟨hb, hmem⟩
    · rintro (hb | ⟨hb, hmem⟩)
      · exact Or.inl (Or.inl hb)
      · by_cases hbw : b = s.tip
        · exact Or.inl (Or.inr hbw)
        · by_cases hbf : t.failed b = true
          · exact Or.inl (Or.inl hbf)
          · have habove : b ∉ tree.ancestors s.tip := by
              intro hdown
              have hup := (lt_of_mem_ancestors hmem (Ne.symm hbw)).1
              have hle := nHeight_le_of_mem_ancestors hdown
              omega
            have hprevb := ancestors_trans (pprev_mem_ancestors hprev) hmem
            refine Or.inr ⟨hb, ?_, work_le_of_rank_le (@rank_le_of_mem_ancestors _ _ tree s _ _ hprevb), hmem⟩
            rw [hf] at hbf
            exact h.headers b (hindex ▸ hb) habove (by simpa using hbf)
              (rank_le_of_mem_ancestors (ancestors_trans hbelow hprevb))
  have hheaders : ∀ b ∈ s.index, b ∉ tree.ancestors t.tip → u.failed b = false →
      s.rank tree pprev ≤ s.rank tree b → b ∈ headers ∧ s.tip ∉ tree.ancestors b := by
    intro b hb hnot hbf hle
    rw [← Bool.not_eq_true, hfailed, not_or, hf, hindex] at hbf
    have hnw : s.tip ∉ tree.ancestors b := fun hmem => hbf.2 ⟨hb, hmem⟩
    refine ⟨h.headers b hb (hout b hnot ?_) (by simpa using hbf.1) hle, hnw⟩
    rintro rfl
    exact hnw (self_mem_ancestors _)
  refine ⟨?_, ?_, ?_, by simp, fun _ => ?_⟩
  · refine hinv.of_failed_above hsame htip hfailed hwalk ?_ ?_
    · intro b hb
      rcases (hcand₂ b).mp hb with hb | ⟨-, -, -, -, -, hb⟩
      · rcases (hcand₁ b).mp hb with rfl | ⟨hb, -⟩
        · exact hinv.active.linked
        · exact hinv.candidates b hb
      · rwa [hsame₁.linked] at hb
    · intro b hb hbf hle
      rw [hcand₂, hcand₁]
      by_cases hmem : b ∈ tree.ancestors t.tip
      · exact Or.inl (Or.inl (rank_injective (le_antisymm (rank_le_of_mem_ancestors hmem) hle)))
      · have hbIndex := hinv.stored.linked_index hb
        have hlow : s.rank tree pprev ≤ s.rank tree b := by
          rw [← hr]
          exact (rank_le_of_mem_ancestors hbelow).trans hle
        obtain ⟨hbh, hnw⟩ := hheaders b (hindex ▸ hbIndex) hmem hbf hlow
        refine Or.inr ⟨hbh, hnw, ?_, eq_false_of_imp (fun hold => (hfailed₂ b).mpr (Or.inl hold)) hbf, ?_, ?_⟩
        · rw [hsame₁.rank]
          exact hle
        · rw [hsame₁.validTransactions]
          exact hinv.stored.haveData_valid b (hinv.stored.linked_haveData b hb)
        · rwa [hsame₁.linked]
  · intro b hb hnot hbf hle
    rw [hsame.index, hindex] at hb
    rw [htip] at hnot
    rw [hsame.rank, hr] at hle
    obtain ⟨hbh, hnw⟩ := hheaders b hb hnot hbf hle
    rw [List.mem_filter, decide_eq_true_eq, getAncestor_eq_some_iff]
    exact ⟨hbh, fun hbad => hnw hbad.2⟩
  · rw [hsame.index, hindex]
    exact hwalkIndex
  · rw [hfailed]
    exact Or.inr ⟨hindex ▸ hwalkIndex, self_mem_ancestors _⟩

theorem Invalidating.withFaults (faults : List Bool) :
    Invalidating tree pindex pprev toMark headers wasInChain { s with faults := faults } :=
  ⟨h.inv.withFaults faults, h.headers, h.toMark_index, h.toMark_eq, h.toMark_failed⟩

theorem Invalidating.wp_invalidateLoop {n : Nat} (hpprev : tree.pprev pindex = some pprev) :
    wp (invalidateLoop tree pindex n toMark headers wasInChain)
      (fun r t => ∃ rest, Invalidating tree pindex pprev r.1 rest r.2 t) (fun _ t => Inv tree [] t) s := by
  induction n generalizing s toMark headers wasInChain with
  | zero => exact ⟨headers, h⟩
  | succ n ih =>
    refine wp_fault_bind fun stop faults => ?_
    have hread := h.withFaults faults
    refine wp_ite (fun _ => ⟨headers, hread⟩) fun _ => ?_
    refine wp_ite (fun _ => ⟨headers, hread⟩) fun hin => ?_
    rw [Bool.not_eq_false, contains, decide_eq_true_eq] at hin
    have hprev : ∃ p, tree.pprev s.tip = some p := by
      rcases mem_ancestors_iff.mp hin with heq | ⟨p, hp, -⟩
      · rw [heq] at hpprev
        exact ⟨pprev, hpprev⟩
      · exact ⟨p, hp⟩
    obtain ⟨p, hp⟩ := hprev
    rw [wp_bind]
    refine wp_mono (hread.inv.wp_disconnectTip hp) ?_ fun _ _ ht => ht.2
    rintro _ t ⟨ht, rfl⟩
    exact ih (hread.round hpprev hin ht hp)
end
end

section
variable {pindex toMark : Block} {wasInChain : Bool}

def finishInvalidation (tree : BlockTree Block) (pindex toMark : Block) (wasInChain : Bool) (s : Chainstate Block) :
    Chainstate Block :=
  (refillCandidates tree (markNeverActive pindex wasInChain s)).invalidChainFound tree toMark

theorem markNeverActive_spec : SameData s (markNeverActive pindex wasInChain s) ∧
    (markNeverActive pindex wasInChain s).tip = s.tip ∧
    (∀ b ∈ (markNeverActive pindex wasInChain s).candidates, b ∈ s.candidates) ∧
    ∀ b, (markNeverActive pindex wasInChain s).failed b = true ↔
      s.failed b = true ∨ (wasInChain = false ∧ b = pindex) := by
  rw [markNeverActive]
  split
  · rename_i hmark
    have hsame : SameData s ((s.modifyEntry pindex fun e => { e with failedValid := true }).eraseCandidate pindex) :=
      (SameData.modifyEntry MarksOnly.setFailedValid s pindex).trans (SameData.of_entry rfl rfl rfl)
    refine ⟨hsame, rfl, fun b hb => (List.mem_filter.mp hb).1, fun b => ?_⟩
    change (s.modifyEntry pindex fun e => { e with failedValid := true }).failed b = true ↔ _
    rw [failed_modifyEntry]
    by_cases hb : b = pindex
    · simp [hb, Entry.failed, hmark.1]
    · simp [hb]
  · rename_i hmark
    refine ⟨SameData.of_entry rfl rfl rfl, rfl, fun b hb => hb, fun b => ⟨Or.inl, ?_⟩⟩
    rintro (hb | ⟨hwas, rfl⟩)
    · exact hb
    · by_contra hnot
      exact hmark ⟨hwas, by simpa using hnot⟩

theorem mem_refillCandidates : b ∈ (refillCandidates tree s).candidates ↔ b ∈ s.candidates ∨
    (b ∈ s.index ∧ s.failed b = false ∧ (s.entry b).validTransactions = true ∧ s.linked b = true ∧
      s.rank tree s.tip ≤ s.rank tree b) := by
  rw [refillCandidates, mem_foldl_insertCandidate, List.mem_filter, decide_eq_true_eq, or_comm,
    Entry.isValidTransactions, Bool.and_eq_true, Bool.not_eq_true', Bool.not_eq_true, workLess_eq_false_iff, and_assoc]
  rfl

theorem Invalidating.finish {pprev : Block} {headers : List Block}
    (h : Invalidating tree pindex pprev toMark headers wasInChain s) (hout : toMark ∉ tree.ancestors s.tip) :
    Inv tree [] (finishInvalidation tree pindex toMark wasInChain s) := by
  obtain ⟨hsame₁, htip₁, hcand₁, hfailed₁⟩ := @markNeverActive_spec _ _ s pindex wasInChain
  set m := markNeverActive pindex wasInChain s
  have hsame₂ : SameData m (refillCandidates tree m) := SameData.foldl_insertCandidate _ _
  have htip₂ : (refillCandidates tree m).tip = m.tip := (foldl_insertCandidate_frame _).2.2
  have hentry₂ : (refillCandidates tree m).entry = m.entry := (foldl_insertCandidate_frame _).1
  have hsame : SameData s (finishInvalidation tree pindex toMark wasInChain s) :=
    (hsame₁.trans hsame₂).trans (SameData.modifyEntries MarksOnly.failChild _ _)
  have htip : (finishInvalidation tree pindex toMark wasInChain s).tip = s.tip := htip₂.trans htip₁
  have hgrow : ∀ b, m.failed b = true → (finishInvalidation tree pindex toMark wasInChain s).failed b = true := by
    intro b hb
    rw [finishInvalidation, invalidChainFound, failed_setBlockFailureFlags, failed, hentry₂]
    exact Or.inl hb
  have hfailed : ∀ b, (finishInvalidation tree pindex toMark wasInChain s).failed b = true ↔
      s.failed b = true ∨ (b ∈ s.index ∧ toMark ∈ tree.ancestors b) := by
    intro b
    rw [finishInvalidation, invalidChainFound, failed_setBlockFailureFlags, failed, hentry₂, ← failed, hfailed₁,
      hsame₂.index, hsame₁.index]
    constructor
    · rintro ((hb | ⟨hwas, rfl⟩) | ⟨hb, -, hmem⟩)
      · exact Or.inl hb
      · rw [← h.toMark_eq hwas]
        exact Or.inr ⟨h.toMark_index, self_mem_ancestors _⟩
      · exact Or.inr ⟨hb, hmem⟩
    · rintro (hb | ⟨hb, hmem⟩)
      · exact Or.inl (Or.inl hb)
      · by_cases hbm : b = toMark
        · subst hbm
          cases hwas : wasInChain with
          | true => exact Or.inl (Or.inl (h.toMark_failed hwas))
          | false => exact Or.inl (Or.inr ⟨rfl, h.toMark_eq hwas⟩)
        · exact Or.inr ⟨hb, hbm, hmem⟩
  refine h.inv.of_failed_above hsame htip hfailed hout ?_ ?_
  · intro b hb
    rcases mem_refillCandidates.mp hb with hb | ⟨-, -, -, hb, -⟩
    · exact h.inv.candidates b (hcand₁ b hb)
    · rwa [hsame₁.linked] at hb
  · intro b hb hbf hle
    refine mem_refillCandidates.mpr (Or.inr ⟨?_, eq_false_of_imp (hgrow b) hbf, ?_, ?_, ?_⟩)
    · rw [hsame₁.index]
      exact h.inv.stored.linked_index hb
    · rw [hsame₁.validTransactions]
      exact h.inv.stored.haveData_valid b (h.inv.stored.linked_haveData b hb)
    · rwa [hsame₁.linked]
    · rw [hsame₁.rank, htip₁]
      exact hle

theorem Inv.wp_invalidateBlock (h : Inv tree [] s) (hmem : pindex ∈ s.index) :
    wp (invalidateBlock tree pindex) (fun _ t => Inv tree [] t) (fun _ t => Inv tree [] t) s := by
  rw [invalidateBlock, wp_bind, wp_get]
  cases hp : tree.pprev pindex with
  | none => exact h
  | some pprev =>
    have hstart : Invalidating tree pindex pprev pindex
        (s.index.filter fun b => !s.contains tree b && !s.workLess tree b pprev && !s.failed b) false s := by
      refine ⟨h, fun b hb hout hbf hle => ?_, hmem, fun _ => rfl, by simp⟩
      rw [← workLess_eq_false_iff] at hle
      simp [contains, hb, hout, hbf, hle]
    simp only [wp_bind]
    refine wp.imp (hstart.wp_invalidateLoop hp) ?_
    rintro ⟨toMark, wasInChain⟩ t ⟨rest, ht⟩
    refine wp_ite (fun _ => ht.inv) fun hout => ?_
    rw [contains, decide_eq_true_eq] at hout
    exact ht.finish hout
end

theorem Inv.initial : Inv tree [] (Chainstate.initial tree) := by
  have hother : ∀ b, b ≠ tree.genesis → (Chainstate.initial tree).entry b = Entry.new := by
    intro b hb
    simp [Chainstate.initial, hb]
  have hself : (Chainstate.initial tree).entry tree.genesis = ⟨false, false, true, true, tree.nTx tree.genesis, 0⟩ := by
    simp [Chainstate.initial]
  have hpos := tree.nTx_pos tree.genesis
  have hlinked : ∀ b, (Chainstate.initial tree).linked b = true ↔ b = tree.genesis := by
    intro b
    by_cases hb : b = tree.genesis
    · simp only [hb, linked, hself, Entry.haveNumChainTxs, bne_iff_ne, iff_true]
      omega
    · simp [hb, linked, hother b hb, Entry.haveNumChainTxs, Entry.new]
  have hdata : ∀ b, (Chainstate.initial tree).haveData b = true ↔ b = tree.genesis := by
    intro b
    by_cases hb : b = tree.genesis
    · simp [hb, haveData, hself]
    · simp [hb, haveData, hother b hb, Entry.new]
  have hfailed : ∀ b, (Chainstate.initial tree).failed b = false := by
    intro b
    by_cases hb : b = tree.genesis
    · rw [hb, failed, hself]
      rfl
    · rw [failed, hother b hb]
      rfl
  have hnone : ∀ p, tree.pprev tree.genesis = some p → False := by
    intro p hp
    rw [tree.pprev_genesis] at hp
    cases hp
  have hconnects : ∀ a ∈ tree.ancestors tree.genesis, tree.connectBlock a = true := by
    intro a ha
    rw [ancestors_genesis, List.mem_singleton] at ha
    rw [ha]
    exact tree.connectBlock_genesis
  refine ⟨⟨?_, ?_, ?_, ?_, ?_, ?_, ?_, ?_, List.nodup_nil, by simp⟩, ?_, ⟨?_, hfailed _, hconnects⟩, ?_,
    tree.genesis, List.mem_singleton_self _, hfailed _, hconnects, le_rfl, ?_⟩
  · intro b hb p hp
    rw [List.mem_singleton.mp hb] at hp
    exact (hnone p hp).elim
  · intro b hb
    exact List.mem_singleton.mpr ((hdata b).mp hb)
  · intro b hb
    rw [(hdata b).mp hb, hself]
  · intro b hb
    exact (hdata b).mpr ((hlinked b).mp hb)
  · intro b p hb hp
    rw [(hlinked b).mp hb] at hp
    exact (hnone p hp).elim
  · exact (hlinked _).mpr rfl
  · intro b hb hbl
    rw [(hlinked b).mpr ((hdata b).mp hb)] at hbl
    cases hbl
  · intro e he
    cases he
  · intro b _ p _ hp
    rw [hfailed] at hp
    cases hp
  · exact (hlinked _).mpr rfl
  · intro b hb
    exact (hlinked b).mpr (List.mem_singleton.mp hb)
  · intro b hb _ _
    exact List.mem_singleton.mpr ((hlinked b).mp hb)

theorem Inv.wp_prog (h : Inv tree [] s) (op : Op Block) :
    wp (op.prog tree) (fun _ t => Inv tree [] t) (fun _ t => Inv tree [] t) s := by
  cases op with
  | header b checks minPowChecked =>
    rw [Op.prog, wp_bind]
    exact wp.imp (h.wp_acceptBlockHeader checks minPowChecked) (fun _ _ ht => ht.1)
  | block b arrival =>
    rw [Op.prog, wp_bind]
    exact h.wp_acceptBlock arrival
  | invalidate b =>
    refine wp_ite (fun hb => ?_) fun _ => h
    rw [wp_bind]
    exact h.wp_invalidateBlock hb
  | reset b =>
    rw [Op.prog, wp_modify]
    split
    · exact h.resetBlockFailureFlags
    · exact h
  | activate =>
    rw [Op.prog, wp_bind]
    exact wp_mono h.wp_activateBestChain (fun _ _ ht => ht.1) fun _ _ ht => ht.2

omit [LinearOrder Block] in
theorem wp_snd {α : Type} {c : ChainM Block α} {P : Chainstate Block → Prop}
    (h : wp c (fun _ t => P t) (fun _ t => P t) s) : P (c.run s).2 := by
  simp only [wp] at h
  rcases hc : c.run s with ⟨_ | _, _⟩ <;> rw [hc] at h <;> exact h

theorem Inv.run (h : Inv tree [] s) (ops : List (Op Block × List Bool)) : Inv tree [] (s.run tree ops) := by
  induction ops generalizing s with
  | nil => exact h
  | cons op ops ih => exact ih (wp_snd ((h.withFaults op.2).wp_prog op.1))

/-- A block that has its data and that of its ancestors, where none of them is marked
as failed. -/
def Eligible (tree : BlockTree Block) (s : Chainstate Block) (b : Block) : Prop :=
  b ∈ s.index ∧ ∀ a ∈ tree.ancestors b, s.haveData a = true ∧ s.failed a = false

/-- Whatever has happened before: where the activation returns `true` and was not
interrupted, no such block has more work than the tip. -/
theorem activateBestChain_most_work (tree : BlockTree Block) (ops : List (Op Block × List Bool)) (faults : List Bool)
    (t : Chainstate Block)
    (hrun : (activateBestChain tree).run { (initial tree).run tree ops with faults := faults } =
      (.ok .done, t)) (b : Block) (hb : Eligible tree t b) : tree.nChainWork b ≤ tree.nChainWork t.tip := by
  have hinv : Inv tree [] ((initial tree).run tree ops) := Inv.initial.run ops
  have hwp := (hinv.withFaults faults).wp_activateBestChain
  rw [wp, hrun] at hwp
  obtain ⟨ht, hmost⟩ := hwp
  have hlinked := ht.stored.linked_of_haveData fun a ha => (hb.2 a ha).1
  have hrank := (hmost rfl).best b hlinked (hb.2 b (self_mem_ancestors b)).2
  exact work_le_of_rank_le hrank

def sampleTree : BlockTree Nat where
  genesis := 0
  pprev b := if b = 0 then none else if b = 1 then some 0 else some (b - 2)
  nHeight b := (b + 1) / 2
  nChainWork b := (b + 1) / 2
  nTx _ := 1
  connectBlock b := b != 6
  pprev_eq_none b h := by
    by_contra hb
    rw [if_neg hb] at h
    split at h <;> cases h
  pprev_genesis := rfl
  nHeight_genesis := rfl
  nHeight_pprev b p h := by
    split_ifs at h <;> (obtain rfl := Option.some.inj h; omega)
  nChainWork_pprev b p h := by
    split_ifs at h <;> (obtain rfl := Option.some.inj h; omega)
  nTx_pos _ := Nat.one_pos
  connectBlock_genesis := rfl

def sampleArrival : Arrival := ⟨true, true, true, 0, .passes⟩

def sampleOps : List (Op Nat × List Bool) :=
  [(.block 1 sampleArrival, []), (.activate, []), (.header 2 true true, []), (.header 4 true true, []),
    (.header 6 true true, []), (.block 6 sampleArrival, []), (.block 4 sampleArrival, []), (.block 2 sampleArrival, [])]

def sampleStart : Chainstate Nat := { (initial sampleTree).run sampleTree sampleOps with faults := [] }

def sampleEnd : Chainstate Nat := ((activateBestChain sampleTree).run sampleStart).2

theorem sampleStart_activates : (activateBestChain sampleTree).run sampleStart = (.ok .done, sampleEnd) := by
  have hdone : ((activateBestChain sampleTree).run sampleStart).1 = .ok .done := by decide +kernel
  simp [sampleEnd, ← hdone]

theorem sampleEnd_eligible : Eligible sampleTree sampleEnd 1 := by
  have hindex : 1 ∈ sampleEnd.index := by decide +kernel
  have hstored : ∀ a ∈ sampleTree.ancestors 1, sampleEnd.haveData a = true ∧ sampleEnd.failed a = false := by
    decide +kernel
  exact ⟨hindex, hstored⟩

theorem activateBestChain_most_work_sample : sampleEnd.tip = 4 ∧ Eligible sampleTree sampleEnd 1 ∧
      sampleTree.nChainWork 1 ≤ sampleTree.nChainWork sampleEnd.tip := by
  have htip : sampleEnd.tip = 4 := by decide +kernel
  exact ⟨htip, sampleEnd_eligible,
    activateBestChain_most_work sampleTree sampleOps [] sampleEnd sampleStart_activates 1 sampleEnd_eligible⟩

/-- After any run, also where calls failed: the blocks of the active chain connect,
have their data and are not marked as failed. -/
theorem run_activeChain_valid (ops : List (Op Block × List Bool)) :
    let s := (initial tree).run tree ops
    ∀ a ∈ tree.ancestors s.tip, tree.connectBlock a = true ∧ s.haveData a = true ∧ s.failed a = false := by
  intro s a ha
  have hinv : Inv tree [] s := Inv.initial.run ops
  have hlinked := hinv.stored.linked_ancestors hinv.active.linked a ha
  have hfailed := hinv.inherited.not_failed hinv.stored (hinv.stored.linked_index hinv.active.linked) hinv.active.failed
  exact ⟨hinv.active.connects a ha, hinv.stored.linked_haveData a hlinked, (hfailed a ha).2⟩

/-- In whatever order blocks arrive: a block is linked once it and its ancestors have
their data, and until then it waits under its parent. -/
theorem run_arrivals_tracked (ops : List (Op Block × List Bool)) (b : Block) :
    let s := (initial tree).run tree ops
    (s.linked b = true ↔ ∀ a ∈ tree.ancestors b, s.haveData a = true) ∧
      (s.haveData b = true ∧ s.linked b = false ↔ ∃ p, tree.pprev b = some p ∧ (p, b) ∈ s.blocksUnlinked) := by
  intro s
  have hstored : Stored tree [] s := (Inv.initial.run ops).stored
  refine ⟨⟨?_, hstored.linked_of_haveData⟩, ?_, ?_⟩
  · intro hb a ha
    exact hstored.linked_haveData a (hstored.linked_ancestors hb a ha)
  · rintro ⟨hdata, hlinked⟩
    obtain hqueued | ⟨p, hp, -, hmem⟩ := hstored.waits b hdata hlinked
    · cases hqueued
    · exact ⟨p, hp, hmem⟩
  · rintro ⟨p, -, hmem⟩
    exact (hstored.unlinked (p, b) hmem).2

end Byze.ChainSelection
