import Byze.CandidateSet

/-! Headers and blocks that arrive, and marks of failure that are taken back. -/

namespace Byze.ChainSelection
open StateWp Chainstate
variable {Block : Type} [LinearOrder Block] {tree : BlockTree Block} {s : Chainstate Block} {queue : List Block}
  {b c : Block}

theorem tryAddBlockIndexCandidate_frame : (s.tryAddBlockIndexCandidate tree b).entry = s.entry ∧
    (s.tryAddBlockIndexCandidate tree b).index = s.index ∧ (s.tryAddBlockIndexCandidate tree b).tip = s.tip ∧
    (s.tryAddBlockIndexCandidate tree b).blocksUnlinked = s.blocksUnlinked := by
  rw [tryAddBlockIndexCandidate]
  split <;> exact ⟨rfl, rfl, rfl, rfl⟩

theorem linkBlock_frame : (s.linkBlock tree b).index = s.index ∧ (s.linkBlock tree b).tip = s.tip ∧
    (s.linkBlock tree b).blocksUnlinked = s.blocksUnlinked :=
  tryAddBlockIndexCandidate_frame.2

theorem linkBlock_entry_of_ne (hc : c ≠ b) : (s.linkBlock tree b).entry c = s.entry c := by
  rw [linkBlock, tryAddBlockIndexCandidate_frame.1]
  exact Function.update_of_ne hc _ _

theorem linkBlock_entry_self : (s.linkBlock tree b).entry b = { s.entry b with
      chainTxCount := tree.nTx b + (tree.pprev b).elim 0 fun p => (s.entry p).chainTxCount
      nSequenceId := s.nBlockSequenceId } := by
  rw [linkBlock, tryAddBlockIndexCandidate_frame.1]
  exact Function.update_self _ _ _

theorem linkBlock_same {α : Type} (g : Entry → α)
    (hg : ∀ e n i, g { e with chainTxCount := n, nSequenceId := i } = g e) (c : Block) :
    g ((s.linkBlock tree b).entry c) = g (s.entry c) := by
  by_cases hc : c = b
  · rw [hc, linkBlock_entry_self, hg]
  · rw [linkBlock_entry_of_ne hc]

theorem linkBlock_haveData (c : Block) : (s.linkBlock tree b).haveData c = s.haveData c :=
  linkBlock_same Entry.haveData (fun _ _ _ => rfl) c

theorem linkBlock_failed (c : Block) : (s.linkBlock tree b).failed c = s.failed c :=
  linkBlock_same Entry.failed (fun _ _ _ => rfl) c

theorem linkBlock_linked (c : Block) : (s.linkBlock tree b).linked c = true ↔ c = b ∨ s.linked c = true := by
  by_cases hc : c = b
  · have hpos := tree.nTx_pos b
    simp only [hc, linked, linkBlock_entry_self, Entry.haveNumChainTxs, bne_iff_ne, true_or, iff_true]
    omega
  · rw [linked, linkBlock_entry_of_ne hc, linked]
    simp [hc]

theorem linkBlock_rank_of_ne (hc : c ≠ b) : (s.linkBlock tree b).rank tree c = s.rank tree c := by
  simp [rank, linkBlock_entry_of_ne hc]

theorem mem_linkBlock_candidates (hc : c ∈ s.candidates) : c ∈ (s.linkBlock tree b).candidates := by
  rw [linkBlock, tryAddBlockIndexCandidate]
  split
  · exact hc
  · exact List.mem_insert_of_mem hc

theorem of_mem_linkBlock_candidates (hc : c ∈ (s.linkBlock tree b).candidates) : c = b ∨ c ∈ s.candidates := by
  rw [linkBlock, tryAddBlockIndexCandidate] at hc
  split at hc
  · exact Or.inr hc
  · exact List.mem_insert_iff.mp hc

theorem self_mem_linkBlock_candidates
    (h : (s.linkBlock tree b).rank tree s.tip ≤ (s.linkBlock tree b).rank tree b) :
    b ∈ (s.linkBlock tree b).candidates := by
  have hentry : (s.linkBlock tree b).entry = (s.numberBlock tree b).entry := tryAddBlockIndexCandidate_frame.1
  simp only [rank, hentry] at h
  have hnot : ¬ (s.numberBlock tree b).workLess tree b s.tip = true := by
    rw [workLess_iff, not_lt]
    exact h
  rw [linkBlock, tryAddBlockIndexCandidate, if_neg (show ¬ (s.numberBlock tree b).workLess tree b
    (s.numberBlock tree b).tip = true from hnot)]
  exact List.mem_insert_self

def linkNext (tree : BlockTree Block) (b : Block) (s : Chainstate Block) : Chainstate Block :=
  { s.linkBlock tree b with
    blocksUnlinked := (s.linkBlock tree b).blocksUnlinked.filter fun e => e.1 ≠ b }

def waitingFor (s : Chainstate Block) (b : Block) : List Block :=
  (s.blocksUnlinked.filter fun e => e.1 = b).map Prod.snd

theorem linkQueue_cons (n : Nat) : linkQueue tree (n + 1) (b :: queue) s =
    linkQueue tree n (queue ++ waitingFor s b) (linkNext tree b s) := by
  rw [linkQueue, waitingFor, linkNext, linkBlock_frame.2.2]

theorem mem_waitingFor : c ∈ waitingFor s b ↔ (b, c) ∈ s.blocksUnlinked := by
  simp [waitingFor]

theorem linkNext_unlinked {e : Block × Block} :
    e ∈ (linkNext tree b s).blocksUnlinked ↔ e ∈ s.blocksUnlinked ∧ e.1 ≠ b := by
  simp [linkNext, linkBlock_frame.2.2]

theorem perm_waitingFor : (waitingFor s b ++ (linkNext tree b s).blocksUnlinked.map Prod.snd).Perm
    (s.blocksUnlinked.map Prod.snd) := by
  rw [waitingFor, linkNext, linkBlock_frame.2.2, ← List.map_append]
  refine List.Perm.map _ ?_
  simpa using List.filter_append_perm (fun e : Block × Block => decide (e.1 = b)) s.blocksUnlinked

theorem Stored.linkNext (h : Stored tree (b :: queue) s) :
    Stored tree (queue ++ waitingFor s b) (linkNext tree b s) := by
  have hfresh := h.nodup
  rw [List.cons_append, List.nodup_cons, List.mem_append, not_or] at hfresh
  have hlinked : ∀ c, (ChainSelection.linkNext tree b s).linked c = true ↔ c = b ∨ s.linked c = true := linkBlock_linked
  have hunlinked : ∀ c, (ChainSelection.linkNext tree b s).linked c = false ↔ c ≠ b ∧ s.linked c = false := by
    intro c
    rw [← Bool.not_eq_true, hlinked, not_or, Bool.not_eq_true]
  have hdata : ∀ c, (ChainSelection.linkNext tree b s).haveData c = s.haveData c := linkBlock_haveData
  have hindex : (ChainSelection.linkNext tree b s).index = s.index := linkBlock_frame.1
  obtain ⟨hbdata, -, hbparent⟩ := h.queued b List.mem_cons_self
  have hother : ∀ e ∈ s.blocksUnlinked, e.2 ≠ b := by
    rintro e he rfl
    exact hfresh.1.2 (List.mem_map_of_mem he)
  constructor
  · rw [hindex]
    exact h.index_pprev
  · intro c hc
    rw [hindex]
    exact h.haveData_index c (by rwa [← hdata])
  · intro c hc
    have hvalid := h.haveData_valid c (by rwa [← hdata])
    exact (linkBlock_same Entry.validTransactions (fun _ _ _ => rfl) c).trans hvalid
  · intro c hc
    rw [hdata]
    rcases (hlinked c).mp hc with rfl | hc
    · exact hbdata
    · exact h.linked_haveData c hc
  · intro c p hc hp
    rw [hlinked]
    rcases (hlinked c).mp hc with rfl | hc
    · exact Or.inr (hbparent p hp)
    · exact Or.inr (h.linked_pprev c p hc hp)
  · rw [hlinked]
    exact Or.inr h.linked_genesis
  · intro c hc hcl
    rw [hdata] at hc
    obtain ⟨hcb, hcl⟩ := (hunlinked c).mp hcl
    rcases h.waits c hc hcl with hqueue | ⟨p, hp, hpl, hmem⟩
    · exact Or.inl (List.mem_append_left _ ((List.mem_cons.mp hqueue).resolve_left hcb))
    · by_cases hpb : p = b
      · subst hpb
        exact Or.inl (List.mem_append_right _ (mem_waitingFor.mpr hmem))
      · exact Or.inr ⟨p, hp, (hunlinked p).mpr ⟨hpb, hpl⟩, linkNext_unlinked.mpr ⟨hmem, hpb⟩⟩
  · intro e he
    have hmem := (linkNext_unlinked.mp he).1
    obtain ⟨hp, hd, hl⟩ := h.unlinked e hmem
    rw [hdata]
    exact ⟨hp, hd, (hunlinked e.2).mpr ⟨hother e hmem, hl⟩⟩
  · rw [List.append_assoc]
    exact (List.Perm.append_left queue perm_waitingFor).nodup_iff.mpr hfresh.2
  · intro c hc
    rw [hdata]
    rcases List.mem_append.mp hc with hqueue | hwaits
    · obtain ⟨hd, hl, hparent⟩ := h.queued c (List.mem_cons_of_mem b hqueue)
      have hcb : c ≠ b := by
        rintro rfl
        exact hfresh.1.1 hqueue
      exact ⟨hd, (hunlinked c).mpr ⟨hcb, hl⟩, fun p hp => (hlinked p).mpr (Or.inr (hparent p hp))⟩
    · rw [mem_waitingFor] at hwaits
      obtain ⟨hp, hd, hl⟩ := h.unlinked _ hwaits
      refine ⟨hd, (hunlinked c).mpr ⟨hother _ hwaits, hl⟩, fun p hp' => (hlinked p).mpr (Or.inl ?_)⟩
      exact Option.some.inj (hp'.symm.trans hp)

theorem Inv.linkNext (h : Inv tree (b :: queue) s) :
    Inv tree (queue ++ waitingFor s b) (linkNext tree b s) := by
  have hlinked : ∀ c, (ChainSelection.linkNext tree b s).linked c = true ↔ c = b ∨ s.linked c = true := linkBlock_linked
  have hfailed : ∀ c, (ChainSelection.linkNext tree b s).failed c = s.failed c := linkBlock_failed
  have hrank : ∀ c, s.linked c = true → (ChainSelection.linkNext tree b s).rank tree c = s.rank tree c := by
    intro c hc
    refine linkBlock_rank_of_ne ?_
    rintro rfl
    rw [(h.stored.queued c List.mem_cons_self).2.1] at hc
    cases hc
  refine h.transfer h.stored.linkNext (h.inherited.congr linkBlock_frame.1 hfailed) linkBlock_frame.2.1
    (fun c hc => (hlinked c).mpr (Or.inr hc)) ((hfailed _).trans h.active.failed)
    (fun c hc => (hfailed c).trans hc.failed) hrank (fun c hc => ?_) (fun c hc _ => mem_linkBlock_candidates hc)
    fun c hc hcf hle => ?_
  · rw [hlinked]
    exact (of_mem_linkBlock_candidates hc).imp_right (h.candidates c)
  · rcases (hlinked c).mp hc with rfl | hc
    · exact Or.inl (self_mem_linkBlock_candidates ((hrank s.tip h.active.linked).le.trans hle))
    · exact Or.inr ⟨hc, (hfailed c).symm.trans hcf⟩

theorem Inv.linkQueue {n : Nat} (h : Inv tree queue s) (hn : queue.length + s.blocksUnlinked.length ≤ n) :
    Inv tree [] (linkQueue tree n queue s) := by
  induction n generalizing queue s with
  | zero =>
    obtain rfl := List.eq_nil_of_length_eq_zero (show queue.length = 0 by omega)
    exact h
  | succ n ih =>
    cases queue with
    | nil => exact h
    | cons b queue =>
      rw [linkQueue_cons]
      refine ih h.linkNext ?_
      have hperm := (@perm_waitingFor _ _ tree s b).length_eq
      simp only [List.length_append, List.length_map, List.length_cons] at hperm hn ⊢
      omega

section

theorem storeData_linked (c : Block) : (s.storeData b).linked c = s.linked c :=
  modifyEntry_same Entry.haveNumChainTxs rfl c

theorem storeData_failed (c : Block) : (s.storeData b).failed c = s.failed c :=
  modifyEntry_same Entry.failed rfl c

theorem storeData_haveData (c : Block) : (s.storeData b).haveData c = true ↔ c = b ∨ s.haveData c = true := by
  by_cases hc : c = b
  · rw [hc, haveData, storeData, entry_modifyEntry_self]
    simp
  · rw [haveData, storeData, entry_modifyEntry_of_ne _ hc, haveData]
    simp [hc]

theorem storeData_rank : (s.storeData b).rank tree = s.rank tree := by
  funext c
  rw [rank, storeData, modifyEntry_same Entry.nSequenceId rfl, rank]

variable {unlinked : List (Block × Block)}

theorem Stored.storeData (h : Stored tree [] s) (hb : b ∈ s.index) (hdata : s.haveData b = false)
    (hfailed : s.failed b = false)
    (hunlinked : queue = [b] ∧ unlinked = s.blocksUnlinked ∧ (∀ p, tree.pprev b = some p → s.linked p = true) ∨
      queue = [] ∧ ∃ p, unlinked = s.blocksUnlinked ++ [(p, b)] ∧ tree.pprev b = some p ∧ s.linked p = false) :
    Stored tree queue { s.storeData b with blocksUnlinked := unlinked } := by
  have hlinked : s.linked b = false := eq_false_of_imp (h.linked_haveData b) hdata
  have hfresh : b ∉ s.blocksUnlinked.map Prod.snd := by
    rintro hmem
    obtain ⟨e, he, rfl⟩ := List.mem_map.mp hmem
    rw [(h.unlinked e he).2.1] at hdata
    cases hdata
  have hold : ∀ e ∈ s.blocksUnlinked, e ∈ unlinked := by
    rcases hunlinked with ⟨-, rfl, -⟩ | ⟨-, p, rfl, -⟩
    · exact fun e he => he
    · exact fun e he => List.mem_append_left _ he
  have hl : ∀ c, Chainstate.linked { Chainstate.storeData s b with blocksUnlinked := unlinked } c = s.linked c :=
    storeData_linked
  have hd : ∀ c, Chainstate.haveData { Chainstate.storeData s b with blocksUnlinked := unlinked } c = true ↔
    c = b ∨ s.haveData c = true := storeData_haveData
  constructor
  · exact h.index_pprev
  · intro c hc
    rcases (hd c).mp hc with rfl | hc
    · exact hb
    · exact h.haveData_index c hc
  · intro c hc
    by_cases hcb : c = b
    · rw [hcb, Chainstate.storeData, entry_modifyEntry_self]
      rw [failed] at hfailed
      simp [hfailed]
    · rw [Chainstate.storeData, entry_modifyEntry_of_ne _ hcb]
      exact h.haveData_valid c (((hd c).mp hc).resolve_left hcb)
  · intro c hc
    rw [hl] at hc
    exact (hd c).mpr (Or.inr (h.linked_haveData c hc))
  · intro c p hc hp
    rw [hl] at hc ⊢
    exact h.linked_pprev c p hc hp
  · rw [hl]
    exact h.linked_genesis
  · intro c hc hcl
    rw [hl] at hcl
    rcases (hd c).mp hc with rfl | hc
    · rcases hunlinked with ⟨rfl, -, -⟩ | ⟨-, p, rfl, hp, hpl⟩
      · exact Or.inl List.mem_cons_self
      · exact Or.inr ⟨p, hp, by rwa [hl], List.mem_append_right _ List.mem_cons_self⟩
    · rcases h.waits c hc hcl with hq | ⟨p, hp, hpl, hmem⟩
      · cases hq
      · exact Or.inr ⟨p, hp, by rwa [hl], hold _ hmem⟩
  · intro e he
    rw [hl, hd]
    rcases hunlinked with ⟨-, rfl, -⟩ | ⟨-, p, rfl, hp, hpl⟩
    · obtain ⟨hp, hed, hel⟩ := h.unlinked e he
      exact ⟨hp, Or.inr hed, hel⟩
    · rcases List.mem_append.mp he with he | he
      · obtain ⟨hp, hed, hel⟩ := h.unlinked e he
        exact ⟨hp, Or.inr hed, hel⟩
      · obtain rfl := List.mem_singleton.mp he
        exact ⟨hp, Or.inl rfl, hlinked⟩
  · have hnodup := List.nodup_cons.mpr ⟨hfresh, h.nodup⟩
    rcases hunlinked with ⟨rfl, rfl, -⟩ | ⟨rfl, p, rfl, -⟩
    · exact hnodup
    · rw [List.nil_append, List.map_append]
      exact (List.perm_append_singleton _ _).nodup_iff.mpr hnodup
  · intro c hc
    rcases hunlinked with ⟨rfl, -, hparent⟩ | ⟨rfl, -⟩
    · obtain rfl := List.mem_singleton.mp hc
      refine ⟨(hd c).mpr (Or.inl rfl), by rwa [hl], fun p hp => ?_⟩
      rw [hl]
      exact hparent p hp
    · cases hc

theorem Inv.storeData (h : Inv tree [] s)
    (hstored : Stored tree queue { s.storeData b with blocksUnlinked := unlinked }) :
    Inv tree queue { s.storeData b with blocksUnlinked := unlinked } := by
  have hl : ∀ c, Chainstate.linked { Chainstate.storeData s b with blocksUnlinked := unlinked } c = s.linked c :=
    storeData_linked
  have hf : ∀ c, Chainstate.failed { Chainstate.storeData s b with blocksUnlinked := unlinked } c = s.failed c :=
    storeData_failed
  have hr : Chainstate.rank tree { Chainstate.storeData s b with blocksUnlinked := unlinked } = s.rank tree :=
    storeData_rank
  exact h.transfer hstored (h.inherited.congr rfl hf) rfl (fun c hc => (hl c).trans hc)
    ((hf _).trans h.active.failed) (fun c hc => (hf c).trans hc.failed) (fun c _ => congrFun hr c)
    (fun c hc => (hl c).trans (h.candidates c hc)) (fun _ hc _ => hc)
    fun c hc hcf _ => Or.inr ⟨(hl c).symm.trans hc, (hf c).symm.trans hcf⟩

theorem Inv.receivedBlockTransactions (h : Inv tree [] s) (hb : b ∈ s.index) (hdata : s.haveData b = false)
    (hfailed : s.failed b = false) : Inv tree [] (s.receivedBlockTransactions tree b) := by
  have hlink : (∀ p, tree.pprev b = some p → s.linked p = true) →
      Inv tree [] (Chainstate.linkQueue tree ((Chainstate.storeData s b).blocksUnlinked.length + 1) [b]
        (Chainstate.storeData s b)) := by
    intro hparent
    have hstored := h.stored.storeData hb hdata hfailed (Or.inl ⟨rfl, rfl, hparent⟩)
    refine (h.storeData hstored).linkQueue ?_
    rw [Nat.add_comm]
    exact le_rfl
  rw [Chainstate.receivedBlockTransactions]
  cases hp : tree.pprev b with
  | none =>
    refine hlink fun p hp' => ?_
    rw [hp] at hp'
    cases hp'
  | some p =>
    dsimp only
    by_cases hpl : s.linked p = true
    · rw [if_pos ((storeData_linked p).trans hpl)]
      refine hlink fun q hq => ?_
      obtain rfl := Option.some.inj (hp.symm.trans hq)
      exact hpl
    · have hunmarked := (h.inherited.not_failed h.stored hb hfailed p (BlockTree.pprev_mem_ancestors hp)).2
      have hnl : ¬ (Chainstate.storeData s b).linked p = true := by rwa [storeData_linked]
      have hnf : ¬ (Chainstate.storeData s b).failed p = true := by rw [storeData_failed, hunmarked]; simp
      rw [if_neg hnl, if_neg hnf]
      exact h.storeData (h.stored.storeData hb hdata hfailed (Or.inr ⟨rfl, p, rfl, hp, by simpa using hpl⟩))

theorem Inv.addHeader (h : Inv tree [] s) {p : Block} (hb : b ∉ s.index) (hp : tree.pprev b = some p)
    (hmem : p ∈ s.index) (hunmarked : s.failed p = false) :
    Inv tree [] { s with index := b :: s.index, entry := Function.update s.entry b Entry.new } := by
  have hnodata : s.haveData b = false := by
    by_contra hnot
    exact hb (h.stored.haveData_index b (by simpa using hnot))
  have hnolink : s.linked b = false := by
    by_contra hnot
    exact hb (h.stored.linked_index (by simpa using hnot))
  set t : Chainstate Block := { s with index := b :: s.index, entry := Function.update s.entry b Entry.new }
  have hother : ∀ c, c ≠ b → t.entry c = s.entry c := fun c hc => Function.update_of_ne hc _ _
  have hself : t.entry b = Entry.new := Function.update_self _ _ _
  have hd : ∀ c, t.haveData c = s.haveData c := by
    intro c
    by_cases hc : c = b
    · rw [hc, haveData, hself, hnodata]
      rfl
    · simp [haveData, hother c hc]
  have hl : ∀ c, t.linked c = s.linked c := by
    intro c
    by_cases hc : c = b
    · rw [hc, linked, hself, hnolink]
      rfl
    · simp [linked, hother c hc]
  have hne : ∀ c, s.linked c = true → c ≠ b := by
    rintro c hc rfl
    rw [hnolink] at hc
    cases hc
  have hf : ∀ c, c ≠ b → t.failed c = s.failed c := fun c hc => by simp [failed, hother c hc]
  have hr : ∀ c, c ≠ b → t.rank tree c = s.rank tree c := fun c hc => by simp [rank, hother c hc]
  refine h.transfer ⟨?_, ?_, ?_, ?_, ?_, ?_, ?_, ?_, h.stored.nodup, ?_⟩ ?_ rfl (fun c hc => (hl c).trans hc)
    ((hf _ (hne _ h.active.linked)).trans h.active.failed)
    (fun c hc => (hf c (hne c (h.candidates c hc.mem))).trans hc.failed) (fun c hc => hr c (hne c hc))
    (fun c hc => (hl c).trans (h.candidates c hc)) (fun _ hc _ => hc) fun c hc hcf _ => ?_
  · intro c hc q hq
    rcases List.mem_cons.mp hc with rfl | hc
    · obtain rfl := Option.some.inj (hp.symm.trans hq)
      exact List.mem_cons_of_mem _ hmem
    · exact List.mem_cons_of_mem _ (h.stored.index_pprev c hc q hq)
  · intro c hc
    rw [hd] at hc
    exact List.mem_cons_of_mem _ (h.stored.haveData_index c hc)
  · intro c hc
    rw [hd] at hc
    have hcb : c ≠ b := by
      rintro rfl
      rw [hnodata] at hc
      cases hc
    rw [hother c hcb]
    exact h.stored.haveData_valid c hc
  · simpa only [hl, hd] using h.stored.linked_haveData
  · simpa only [hl] using h.stored.linked_pprev
  · simpa only [hl] using h.stored.linked_genesis
  · simpa only [hl, hd] using h.stored.waits
  · simpa only [hl, hd] using h.stored.unlinked
  · intro c hc
    cases hc
  · intro c hc q hq hqf
    rcases List.mem_cons.mp hc with rfl | hold
    · obtain rfl := Option.some.inj (hp.symm.trans hq)
      have hpb : p ≠ c := by
        rintro rfl
        exact hb hmem
      rw [hf p hpb, hunmarked] at hqf
      cases hqf
    · have hqb : q ≠ b := by
        rintro rfl
        exact hb (h.stored.index_pprev c hold q hq)
      have hcb : c ≠ b := by
        rintro rfl
        exact hb hold
      rw [hf c hcb]
      rw [hf q hqb] at hqf
      exact h.inherited c hold q hq hqf
  · have hcl := (hl c).symm.trans hc
    exact Or.inr ⟨hcl, (hf c (hne c hcl)).symm.trans hcf⟩
end

theorem foldl_insertCandidate_frame (l : List Block) : (l.foldl insertCandidate s).entry = s.entry ∧
    (l.foldl insertCandidate s).index = s.index ∧ (l.foldl insertCandidate s).tip = s.tip := by
  induction l generalizing s with
  | nil => exact ⟨rfl, rfl, rfl⟩
  | cons b l ih => exact ih

theorem mem_foldl_insertCandidate (l : List Block) :
    c ∈ (l.foldl insertCandidate s).candidates ↔ c ∈ l ∨ c ∈ s.candidates := by
  induction l generalizing s with
  | nil => simp
  | cons b l ih =>
    rw [List.foldl_cons, ih, insertCandidate, List.mem_insert_iff, List.mem_cons]
    tauto

section
variable {x : Block}

def Cleared (tree : BlockTree Block) (s : Chainstate Block) (x b : Block) : Prop :=
  s.failed b = true ∧ (x ∈ tree.ancestors b ∨ b ∈ tree.ancestors x)

theorem resetBlockFailureFlags_failed :
    (s.resetBlockFailureFlags tree x).failed b = true ↔ s.failed b = true ∧ ¬ (b ∈ s.index ∧ Cleared tree s x b) := by
  rw [resetBlockFailureFlags]
  rw [failed, (foldl_insertCandidate_frame _).1, ← failed, failed_modifyEntries]
  simp only [BlockTree.getAncestor_eq_some_iff, Bool.and_eq_true, Bool.or_eq_true, decide_eq_true_eq, Cleared]
  split
  · rename_i h
    simp [Entry.failed, h]
  · rename_i h
    simp [h]

theorem resetBlockFailureFlags_sameData : SameData s (s.resetBlockFailureFlags tree x) :=
  (SameData.modifyEntries MarksOnly.unmark s _).trans (SameData.foldl_insertCandidate _ _)

theorem resetBlockFailureFlags_tip : (s.resetBlockFailureFlags tree x).tip = s.tip :=
  (foldl_insertCandidate_frame _).2.2

theorem mem_resetBlockFailureFlags_candidates :
    c ∈ (s.resetBlockFailureFlags tree x).candidates ↔ c ∈ s.candidates ∨ (c ∈ s.index ∧ Cleared tree s x c ∧
      (s.entry c).validTransactions = true ∧ s.linked c = true ∧ s.rank tree s.tip < s.rank tree c) := by
  rw [resetBlockFailureFlags]
  rw [mem_foldl_insertCandidate, List.mem_filter, or_comm]
  refine or_congr Iff.rfl (and_congr_right fun hc => ?_)
  simp only [BlockTree.getAncestor_eq_some_iff, Bool.and_eq_true, Bool.or_eq_true, decide_eq_true_eq, workLess_iff,
    (SameData.modifyEntries MarksOnly.unmark s _).linked, and_assoc]
  refine ⟨?_, ?_⟩
  · rintro ⟨hfailed, hrelated, hvalid, hlinked, hrank⟩
    refine ⟨⟨hfailed, hrelated⟩, ?_, hlinked, hrank⟩
    simp only [Entry.isValidTransactions, Bool.and_eq_true] at hvalid
    rw [← (SameData.modifyEntries MarksOnly.unmark s _).validTransactions]
    exact hvalid.2
  · rintro ⟨⟨hfailed, hrelated⟩, hvalid, hlinked, hrank⟩
    refine ⟨hfailed, hrelated, ?_, hlinked, hrank⟩
    simp [Entry.isValidTransactions, Entry.failed, modifyEntries, hc, hfailed, hrelated, hvalid]

theorem Inv.resetBlockFailureFlags (h : Inv tree [] s) : Inv tree [] (s.resetBlockFailureFlags tree x) := by
  have hsame := @resetBlockFailureFlags_sameData _ _ tree s x
  have htip := @resetBlockFailureFlags_tip _ _ tree s x
  have hclear : ∀ c, s.failed c = false → (s.resetBlockFailureFlags tree x).failed c = false := by
    intro c hc
    rw [← Bool.not_eq_true, resetBlockFailureFlags_failed, hc]
    simp
  refine h.transfer (h.stored.of_sameData hsame) ?_ htip (fun c hc => ?_) (hclear _ h.active.failed)
    (fun c hc => hclear c hc.failed) (fun c _ => congrFun hsame.rank c) (fun c hc => ?_)
    (fun c hc _ => mem_resetBlockFailureFlags_candidates.mpr (Or.inl hc)) fun c hc hcf hle => ?_
  · intro b hb p hp hf
    rw [resetBlockFailureFlags_failed] at hf ⊢
    rw [hsame.index] at hb
    have hbf := h.inherited b hb p hp hf.1
    refine ⟨hbf, fun hcleared => hf.2 ⟨h.stored.index_pprev b hb p hp, hf.1, ?_⟩⟩
    rcases hcleared.2.2 with hxb | hbx
    · rcases (BlockTree.mem_ancestors_of_pprev hp).mp hxb with rfl | hxp
      · exact Or.inr (BlockTree.pprev_mem_ancestors hp)
      · exact Or.inl hxp
    · exact Or.inr (BlockTree.ancestors_trans (BlockTree.pprev_mem_ancestors hp) hbx)
  · rwa [hsame.linked]
  · rw [hsame.linked]
    rcases mem_resetBlockFailureFlags_candidates.mp hc with hc | ⟨-, -, -, hc, -⟩
    · exact h.candidates c hc
    · exact hc
  · rw [hsame.linked] at hc
    rw [hsame.rank] at hle
    by_cases hsf : s.failed c = false
    · exact Or.inr ⟨hc, hsf⟩
    · rw [← Bool.not_eq_true, resetBlockFailureFlags_failed] at hcf
      have hcleared : c ∈ s.index ∧ Cleared tree s x c := by
        by_contra hnot
        exact hcf ⟨by simpa using hsf, hnot⟩
      have hlt := lt_of_le_of_ne hle fun heq => hsf (rank_injective heq ▸ h.active.failed)
      have hvalid := h.stored.haveData_valid c (h.stored.linked_haveData c hc)
      exact Or.inl (mem_resetBlockFailureFlags_candidates.mpr (Or.inr ⟨hcleared.1, hcleared.2, hvalid, hc, hlt⟩))
end

omit [LinearOrder Block] in
theorem wp_fault_bind {α : Type} {f : Bool → ChainM Block α} {Q : α → Chainstate Block → Prop}
    {E : Stop → Chainstate Block → Prop} (h : ∀ stop faults, wp (f stop) Q E { s with faults := faults }) :
    wp (fault >>= f) Q E s := by
  exact h _ _

theorem Inv.wp_acceptBlockHeader (h : Inv tree [] s) (checks minPowChecked : Bool) :
    wp (acceptBlockHeader tree b checks minPowChecked)
      (fun accepted t => Inv tree [] t ∧ (accepted = true → b ∈ t.index ∧ t.failed b = false))
      (fun _ t => Inv tree [] t) s := by
  refine wp_ite (fun hb => ⟨h, fun hf => ⟨hb.2, by simpa using hf⟩⟩) fun hb => ?_
  cases hp : tree.pprev b with
    | none =>
      obtain rfl := tree.pprev_eq_none b hp
      have htip := h.stored.linked_index h.active.linked
      exact ⟨h, fun _ => h.inherited.not_failed h.stored htip h.active.failed _ (BlockTree.genesis_mem_ancestors _)⟩
    | some p =>
      replace hb : b ∉ s.index := fun hmem => hb ⟨BlockTree.ne_genesis_of_pprev hp, hmem⟩
      refine wp_ite (fun _ => ⟨h, by simp⟩) fun hgood => ?_
      simp only [Bool.or_eq_true, decide_eq_true_eq, not_or, Bool.not_eq_true, not_not] at hgood
      obtain ⟨⟨⟨-, hmem⟩, hunmarked⟩, -⟩ := hgood
      refine ⟨h.addHeader hb hp hmem hunmarked, fun _ => ⟨List.mem_cons_self, ?_⟩⟩
      simp [failed, Entry.failed, Entry.new]

theorem Inv.wp_acceptBlock (h : Inv tree [] s) (arrival : Arrival) :
    wp (acceptBlock tree b arrival) (fun _ t => Inv tree [] t) (fun _ t => Inv tree [] t) s := by
  rw [acceptBlock, wp_bind]
  refine wp.imp (h.wp_acceptBlockHeader _ _) ?_
  rintro accepted t ⟨ht, haccepted⟩
  refine wp_ite (fun hyes => ?_) fun _ => ht
  obtain ⟨hb, hunmarked⟩ := haccepted hyes
  refine wp_ite (fun _ => ht) fun hdata => wp_ite (fun _ => ht) fun _ => ?_
  rw [Bool.not_eq_true] at hdata
  cases arrival.checks with
  | mutated => exact ht
  | invalid =>
    have hdown : ∀ c, t.linked c = true → b ∉ tree.ancestors c := by
      intro c hc hbc
      rw [ht.stored.linked_haveData b (ht.stored.linked_ancestors hc b hbc)] at hdata
      cases hdata
    exact ht.invalidBlockFound hb (hdown _ ht.active.linked) fun c hc => hdown c (ht.candidates c hc.mem)
  | passes =>
    refine wp_fault_bind fun stop faults => wp_ite (fun _ => ht.withFaults faults) fun _ => ?_
    exact (ht.withFaults faults).receivedBlockTransactions hb hdata hunmarked

end Byze.ChainSelection
