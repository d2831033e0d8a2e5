import Byze.BlockArrivals
import Mathlib.Data.Finset.Card
import Mathlib.Tactic.Ring

/-! The activation of the best chain. It ends at a tip that no block with all its data
and without a mark of failure is better than. -/

namespace Byze.ChainSelection
open StateWp Chainstate ChainSelection.BlockTree
variable {Block : Type} [LinearOrder Block] {tree : BlockTree Block} {s t : Chainstate Block} {b x : Block}

/-- A block that is linked and not marked, and no worse than any other such block. -/
structure MostWork (tree : BlockTree Block) (s : Chainstate Block) (b : Block) : Prop where
  linked : s.linked b = true
  failed : s.failed b = false
  best : ∀ c, s.linked c = true → s.failed c = false → s.rank tree c ≤ s.rank tree b

theorem MostWork.of_entry (h : MostWork tree s b) (hentry : t.entry = s.entry) : MostWork tree t b := by
  have hl : ∀ c, t.linked c = s.linked c := fun c => by simp [Chainstate.linked, hentry]
  have hf : ∀ c, t.failed c = s.failed c := fun c => by simp [Chainstate.failed, hentry]
  have hr : t.rank tree = s.rank tree := funext fun c => by simp [rank, hentry]
  constructor
  · rw [hl]
    exact h.linked
  · rw [hf]
    exact h.failed
  · simpa only [hl, hf, hr] using h.best

/-- Only an error of the system stops a call early, and it leaves a state that is in
order. -/
def Stops (tree : BlockTree Block) (e : Stop) (t : Chainstate Block) : Prop := e = .systemError ∧ Inv tree [] t

structure Later (s t : Chainstate Block) : Prop where
  index : t.index = s.index
  failed : ∀ b, s.failed b = true → t.failed b = true

omit [LinearOrder Block] in
theorem Later.trans {u : Chainstate Block} (h : Later s t) (h' : Later t u) : Later s u :=
  ⟨h'.index.trans h.index, fun b hb => h'.failed b (h.failed b hb)⟩

omit [LinearOrder Block] in
theorem Inherited.failed_of_ancestor {queue : List Block} (h : Inherited tree s) (hs : Stored tree queue s)
    (hb : b ∈ s.index) (hx : x ∈ tree.ancestors b) (hf : s.failed x = true) : s.failed b = true := by
  by_contra hnot
  rw [(h.not_failed hs hb (by simpa using hnot) x hx).2] at hf
  cases hf

theorem mem_ancestors_of_mem_takeWhile (hx : x ∈ tree.ancestors b) {a : Block}
    (ha : a ∈ (tree.ancestors b).takeWhile (· ≠ x)) : x ∈ tree.ancestors a ∧ a ∈ tree.ancestors b := by
  refine ⟨?_, (List.takeWhile_sublist _).subset ha⟩
  induction b using induction_pprev tree with
  | hgenesis =>
    rw [ancestors_genesis, List.mem_singleton] at hx
    rw [ancestors_genesis, hx] at ha
    simp at ha
  | hpprev b p hp ih =>
    rw [ancestors_of_pprev hp] at hx ha
    by_cases hbx : b = x
    · simp [hbx] at ha
    · rw [List.takeWhile_cons, if_pos (by simpa using hbx)] at ha
      rcases List.mem_cons.mp ha with rfl | ha
      · rw [ancestors_of_pprev hp]
        exact hx
      · exact ih ((List.mem_cons.mp hx).resolve_left (Ne.symm hbx)) ha

theorem Inv.discardChain (h : Inv tree [] s) (hb : b ∈ s.candidates) (hx : x ∈ tree.ancestors b)
    (hf : s.failed x = true) : Inv tree [] (discardChain tree b x s) := by
  have habove : ∀ a ∈ (tree.ancestors b).takeWhile (· ≠ x), s.failed a = true := by
    intro a ha
    obtain ⟨hxa, hab⟩ := mem_ancestors_of_mem_takeWhile hx ha
    have hlinked := h.stored.linked_ancestors (h.candidates b hb) a hab
    exact h.inherited.failed_of_ancestor h.stored (h.stored.linked_index hlinked) hxa hf
  rw [ChainSelection.discardChain]
  rw [if_pos hf]
  set dropped : Chainstate Block := { s with
    candidates := s.candidates.filter fun c => c ∉ (tree.ancestors b).takeWhile (· ≠ x) ∧ c ≠ x }
  set marked := dropped.modifyEntries (· ∈ (tree.ancestors b).takeWhile (· ≠ x)) fun e => { e with failedChild := true }
  have hsame : SameData s marked := by
    have hdropped : SameData s dropped := SameData.of_entry rfl rfl rfl
    exact hdropped.trans (SameData.modifyEntries MarksOnly.setFailedChild dropped _)
  have hfailed : ∀ c, marked.failed c = s.failed c := by
    intro c
    rw [failed_modifyEntries]
    split
    · rename_i hc
      rw [habove c (by simpa using hc.2)]
      simp [Entry.failed]
    · rfl
  refine h.mark hsame rfl (h.inherited.congr rfl hfailed) (fun c hc => (hfailed c).trans hc)
    ((hfailed _).trans h.active.failed) (fun c hc => (hfailed c).trans hc.failed)
    (fun c hc => (List.mem_filter.mp hc).1) ?_
  · intro c hc hcf
    rw [hfailed] at hcf
    refine List.mem_filter.mpr ⟨hc, decide_eq_true ⟨fun hmem => ?_, fun hcx => ?_⟩⟩
    · rw [habove c hmem] at hcf
      cases hcf
    · rw [hcx, hf] at hcf
      cases hcf

theorem discardChain_tip : (discardChain tree b x s).tip = s.tip := by
  rw [discardChain]
  split <;> rfl

theorem discardChain_later (hf : s.failed x = true) : Later s (discardChain tree b x s) := by
  rw [discardChain]
  rw [if_pos hf]
  refine ⟨rfl, fun c hc => ?_⟩
  rw [failed_modifyEntries]
  split
  · simp [Entry.failed]
  · exact hc

theorem discardChain_length_lt (hb : b ∈ s.candidates) (hx : x ∈ tree.ancestors b) :
    (discardChain tree b x s).candidates.length < s.candidates.length := by
  have hcandidates : (discardChain tree b x s).candidates =
      s.candidates.filter fun c => c ∉ (tree.ancestors b).takeWhile (· ≠ x) ∧ c ≠ x := by
    rw [discardChain]
    split <;> rfl
  rw [hcandidates]
  refine List.length_filter_lt_length_iff_exists.mpr ⟨b, hb, ?_⟩
  by_cases hbx : b = x
  · simp [hbx]
  · have hmem : b ∈ (tree.ancestors b).takeWhile (· ≠ x) := by
      rcases mem_ancestors_iff.mp hx with rfl | ⟨p, hp, -⟩
      · exact absurd rfl hbx
      · rw [ancestors_of_pprev hp, List.takeWhile_cons, if_pos (by simpa using hbx)]
        exact List.mem_cons_self
    simp only [decide_eq_true_eq, not_and_or, not_not]
    exact Or.inl hmem

theorem firstUnusable_cases {l : List Block} (hl : ∀ a ∈ l, s.linked a = true ∧ s.haveData a = true) :
    (firstUnusable tree s l = .ok none ∧
      ∀ a, l.head? = some a → a ∈ tree.ancestors s.tip ∨ s.failed a = false) ∨
    ∃ a ∈ l, s.failed a = true ∧ firstUnusable tree s l = .ok (some a) := by
  induction l with
  | nil => exact Or.inl ⟨rfl, by simp⟩
  | cons a l ih =>
    obtain ⟨hlinked, hdata⟩ := hl a List.mem_cons_self
    rw [firstUnusable]
    by_cases hin : s.contains tree a = true
    · rw [if_pos hin]
      refine Or.inl ⟨rfl, fun c hc => Or.inl ?_⟩
      obtain rfl := Option.some.inj hc
      simpa [contains] using hin
    · rw [if_neg hin, if_neg (by simp [hlinked])]
      by_cases hf : s.failed a = true
      · exact Or.inr ⟨a, List.mem_cons_self, hf, by simp [hf]⟩
      · rw [if_neg (by simp [hf, hdata])]
        rcases ih fun c hc => hl c (List.mem_cons_of_mem a hc) with ⟨hnone, -⟩ | ⟨c, hc, hcf, hsome⟩
        · refine Or.inl ⟨hnone, fun c hc => Or.inr ?_⟩
          obtain rfl := Option.some.inj hc
          simpa using hf
        · exact Or.inr ⟨c, List.mem_cons_of_mem a hc, hcf, hsome⟩

theorem Inv.mostWork (h : Inv tree [] s) (hb : b ∈ s.candidates) (hf : s.failed b = false)
    (hbest : ∀ c ∈ s.candidates, s.rank tree c ≤ s.rank tree b) : MostWork tree s b := by
  refine ⟨h.candidates b hb, hf, fun c hc hcf => ?_⟩
  obtain ⟨a, ha⟩ := h.anchored
  rcases le_total (s.rank tree a) (s.rank tree c) with hle | hle
  · exact hbest c (ha.complete c hc hcf hle)
  · exact hle.trans (hbest a ha.mem)

theorem head?_ancestors (b : Block) : (tree.ancestors b).head? = some b := by
  by_cases hb : b = tree.genesis
  · rw [hb, ancestors_genesis]
    rfl
  · obtain ⟨p, hp⟩ := pprev_isSome_of_ne hb
    rw [ancestors_of_pprev hp]
    rfl

theorem Inv.wp_findMostWorkLoop {rounds : Nat} (h : Inv tree [] s) (hrounds : s.candidates.length ≤ rounds) :
    wp (findMostWorkLoop tree rounds)
      (fun found t => Inv tree [] t ∧ t.tip = s.tip ∧ Later s t ∧ ∃ b, found = some b ∧ MostWork tree t b)
      (Stops tree) s := by
  induction rounds generalizing s with
  | zero => exact absurd (List.eq_nil_of_length_eq_zero (Nat.le_zero.mp hrounds)) h.candidates_ne_nil
  | succ rounds ih =>
    simp only [findMostWorkLoop, wp_bind, wp_get]
    cases hbest : Best.best (fun a b => s.workLess tree b a) s.candidates with
    | none => exact absurd (Best.best_eq_none.mp hbest) h.candidates_ne_nil
    | some b =>
      obtain ⟨hb, hle⟩ := Best.best_le (fun c => OrderDual.toDual (s.rank tree c))
        (fun a _ c _ => workLess_iff) hbest
      have hall : ∀ a ∈ tree.ancestors b, s.linked a = true ∧ s.haveData a = true := by
        intro a ha
        have hlinked := h.stored.linked_ancestors (h.candidates b hb) a ha
        exact ⟨hlinked, h.stored.linked_haveData a hlinked⟩
      rcases firstUnusable_cases hall with ⟨hnone, hhead⟩ | ⟨x, hx, hf, hsome⟩
      · dsimp only
        rw [hnone]
        refine ⟨h, rfl, ⟨rfl, fun _ hc => hc⟩, b, rfl, h.mostWork hb ?_ fun c hc => OrderDual.toDual_le_toDual.mp (hle c hc)⟩
        rcases hhead b (head?_ancestors b) with hin | hf
        · have htip := h.stored.linked_index h.active.linked
          exact (h.inherited.not_failed h.stored htip h.active.failed b hin).2
        · exact hf
      · dsimp only
        rw [hsome]
        have hless := discardChain_length_lt hb hx
        refine wp.imp (ih (h.discardChain hb hx hf) (by omega)) ?_
        rintro found t ⟨ht, htip, hlater, hfound⟩
        exact ⟨ht, htip.trans discardChain_tip, (discardChain_later hf).trans hlater, hfound⟩

section

def Climbs (tree : BlockTree Block) : Block → List Block → Prop
  | _, [] => True
  | p, b :: l => tree.pprev b = some p ∧ Climbs tree b l

omit [LinearOrder Block]

theorem getLastD_append {α : Type} (l l' : List α) (a : α) : (l ++ l').getLastD a = l'.getLastD (l.getLastD a) := by
  induction l generalizing a with
  | nil => rfl
  | cons b l ih => rw [List.cons_append, List.getLastD_cons, List.getLastD_cons, ih]

theorem climbs_append {p : Block} {l l' : List Block} :
    Climbs tree p (l ++ l') ↔ Climbs tree p l ∧ Climbs tree (l.getLastD p) l' := by
  induction l generalizing p with
  | nil => simp [Climbs]
  | cons b l ih => rw [List.cons_append, Climbs, Climbs, ih, List.getLastD_cons, and_assoc]

theorem Climbs.mem_ancestors {p : Block} {l : List Block} (h : Climbs tree p l) :
    p ∈ tree.ancestors (l.getLastD p) ∧ ∀ a ∈ l, a ∈ tree.ancestors (l.getLastD p) := by
  induction l generalizing p with
  | nil => exact ⟨self_mem_ancestors p, by simp⟩
  | cons b l ih =>
    obtain ⟨hb, hl⟩ := ih h.2
    rw [List.getLastD_cons]
    exact ⟨ancestors_trans (pprev_mem_ancestors h.1) hb, List.forall_mem_cons.mpr ⟨hb, hl⟩⟩

theorem exists_getAncestor {height : Nat} (h : height ≤ tree.nHeight b) : ∃ a, tree.getAncestor b height = some a := by
  induction b using induction_pprev tree with
  | hgenesis =>
    rw [tree.nHeight_genesis] at h
    refine ⟨tree.genesis, ?_⟩
    rw [getAncestor, ancestors_genesis]
    simp [tree.nHeight_genesis, Nat.le_zero.mp h]
  | hpprev b p hp ih =>
    have hb := tree.nHeight_pprev b p hp
    by_cases heq : tree.nHeight b = height
    · refine ⟨b, ?_⟩
      rw [getAncestor, ancestors_of_pprev hp]
      simp [heq]
    · obtain ⟨a, ha⟩ := ih (by omega)
      refine ⟨a, ?_⟩
      rw [getAncestor] at ha ⊢
      rw [ancestors_of_pprev hp]
      simpa [heq] using ha
end

theorem exists_findFork (s : Chainstate Block) (b : Block) :
    ∃ fork, s.findFork tree b = some fork ∧ fork ∈ tree.ancestors s.tip ∧ fork ∈ tree.ancestors b := by
  obtain ⟨a, ha⟩ := exists_getAncestor (Nat.min_le_left (tree.nHeight b) (tree.nHeight s.tip))
  have hab : a ∈ tree.ancestors b := List.mem_of_find?_eq_some ha
  rw [findFork, ha]
  cases hfind : (tree.ancestors a).find? (s.contains tree) with
  | none =>
    have hgenesis := List.find?_eq_none.mp hfind tree.genesis (genesis_mem_ancestors a)
    simp [contains, genesis_mem_ancestors] at hgenesis
  | some fork =>
    refine ⟨fork, hfind, ?_, ancestors_trans (List.mem_of_find?_eq_some hfind) hab⟩
    simpa [contains] using List.find?_some hfind

theorem climbs_from_fork {fork : Block} (hfork : fork ∈ tree.ancestors b) :
    Climbs tree fork ((tree.ancestors b).takeWhile (· ≠ fork)).reverse ∧
      ((tree.ancestors b).takeWhile (· ≠ fork)).reverse.getLastD fork = b := by
  induction b using induction_pprev tree with
  | hgenesis =>
    rw [ancestors_genesis, List.mem_singleton] at hfork
    rw [ancestors_genesis, hfork]
    simp [Climbs]
  | hpprev b p hp ih =>
    rw [ancestors_of_pprev hp] at hfork ⊢
    by_cases hb : b = fork
    · simp [hb, Climbs]
    · obtain ⟨hclimbs, hlast⟩ := ih ((List.mem_cons.mp hfork).resolve_left (Ne.symm hb))
      rw [List.takeWhile_cons, if_pos (by simpa using hb), List.reverse_cons]
      refine ⟨climbs_append.mpr ⟨hclimbs, ?_⟩, ?_⟩
      · rw [hlast]
        exact ⟨hp, trivial⟩
      · simp

section

structure Keeps (tree : BlockTree Block) (s t : Chainstate Block) : Prop where
  inv : Inv tree [] t
  entry : t.entry = s.entry
  index : t.index = s.index

theorem Keeps.trans {u : Chainstate Block} (h : Keeps tree s t) (h' : Keeps tree t u) : Keeps tree s u :=
  ⟨h'.inv, h'.entry.trans h.entry, h'.index.trans h.index⟩

theorem Keeps.later (h : Keeps tree s t) : Later s t := by
  refine ⟨h.index, fun b hb => ?_⟩
  rwa [failed, h.entry]

theorem Inv.wp_pruneBlockIndexCandidates (h : Inv tree [] s) :
    wp (pruneBlockIndexCandidates tree) (fun _ t => Keeps tree s t ∧ t.tip = s.tip) (Stops tree) s := by
  exact wp_ite (fun hnil => absurd hnil h.prune.candidates_ne_nil) fun _ => ⟨⟨h.prune, rfl, rfl⟩, rfl⟩

theorem Inv.wp_disconnectTip (h : Inv tree [] s) {p : Block} (hp : tree.pprev s.tip = some p) :
    wp (disconnectTip tree) (fun _ t => Keeps tree s t ∧ t.tip = p) (Stops tree) s := by
  rw [disconnectTip, wp_bind, wp_get]
  simp only [hp]
  refine wp_fault_bind fun stop faults => wp_ite (fun _ => ⟨rfl, h.withFaults faults⟩) fun _ => ?_
  exact ⟨⟨(h.withFaults faults).disconnect hp, rfl, rfl⟩, rfl⟩

theorem Inv.wp_disconnectTo {fork : Block} {n : Nat} (h : Inv tree [] s) (hfork : fork ∈ tree.ancestors s.tip)
    (hn : tree.nHeight s.tip ≤ tree.nHeight fork + n) :
    wp (disconnectTo tree fork n) (fun _ t => Keeps tree s t ∧ t.tip = fork) (Stops tree) s := by
  induction n generalizing s with
  | zero =>
    refine ⟨⟨h, rfl, rfl⟩, ?_⟩
    by_contra hne
    have hlt := (lt_of_mem_ancestors hfork (Ne.symm hne)).1
    omega
  | succ n ih =>
    refine wp_ite (fun htip => ⟨⟨h, rfl, rfl⟩, htip⟩) fun hne => ?_
    rcases mem_ancestors_iff.mp hfork with heq | ⟨p, hp, hfork⟩
    · exact absurd heq.symm hne
    · have hheight := tree.nHeight_pprev _ p hp
      refine wp.seq (h.wp_disconnectTip hp) ?_
      rintro _ t ⟨ht, rfl⟩
      exact wp.imp (ih ht.inv hfork (by omega)) (fun _ u hu => ⟨ht.trans hu.1, hu.2⟩)

omit [LinearOrder Block] in
theorem not_mem_ancestors_of_connects {front : Block} (hbad : tree.connectBlock x = false)
    (hx : x ∈ tree.ancestors front) (c : Block) (hc : ∀ a ∈ tree.ancestors c, tree.connectBlock a = true) :
    front ∉ tree.ancestors c := by
  intro hmem
  rw [hc x (ancestors_trans hx hmem)] at hbad
  cases hbad

theorem Inv.wp_connectTip (h : Inv tree [] s) (hp : tree.pprev x = some s.tip) (hlinked : s.linked x = true)
    (hfailed : s.failed x = false) :
    wp (connectTip tree x) (fun connected t => if connected then Keeps tree s t ∧ t.tip = x
        else Inv tree [] t ∧ Later s t ∧ t.failed x = true ∧ tree.connectBlock x = false)
      (Stops tree) s := by
  refine wp_ite (fun hne => absurd hp hne) fun _ => ?_
  refine wp_fault_bind fun stop faults => wp_ite (fun _ => ⟨rfl, h.withFaults faults⟩) fun _ => ?_
  have hread := h.withFaults faults
  refine wp_ite (fun hbad => ?_) fun hgood => ?_
  · rw [Bool.not_eq_true'] at hbad
    have hindex := h.stored.linked_index hlinked
    have hdown := not_mem_ancestors_of_connects hbad (self_mem_ancestors x)
    refine ⟨hread.invalidBlockFound hindex (hdown _ h.active.connects) fun c hc => hdown c hc.connects,
      ⟨rfl, fun b hb => ?_⟩, ?_, hbad⟩
    · exact (failed_invalidBlockFound hindex).mpr (Or.inl hb)
    · exact (failed_invalidBlockFound hindex).mpr (Or.inr ⟨hindex, self_mem_ancestors x⟩)
  · rw [Bool.not_eq_true', Bool.not_eq_false] at hgood
    refine wp_fault_bind fun stop faults' => wp_ite (fun _ => ⟨rfl, hread.withFaults faults'⟩) fun _ => ?_
    exact ⟨⟨(hread.withFaults faults').connect hp hlinked hfailed hgood, rfl, rfl⟩, rfl⟩

def Reached (tree : BlockTree Block) (oldWork : Nat) (last : Block) (s t : Chainstate Block) : Progress → Prop
  | .all => Keeps tree s t ∧ t.tip = last
  | .better => Keeps tree s t ∧ oldWork < tree.nChainWork t.tip
  | .invalid => Inv tree [] t ∧ Later s t ∧ ∃ x ∈ s.index, s.failed x = false ∧ t.failed x = true

theorem Reached.after {oldWork : Nat} {last : Block} {u : Chainstate Block} {progress : Progress} (h : Keeps tree s t)
    (h' : Reached tree oldWork last t u progress) : Reached tree oldWork last s u progress := by
  cases progress with
  | all => exact ⟨h.trans h'.1, h'.2⟩
  | better => exact ⟨h.trans h'.1, h'.2⟩
  | invalid =>
    obtain ⟨hinv, hlater, x, hx, hold, hnew⟩ := h'
    refine ⟨hinv, h.later.trans hlater, x, h.index ▸ hx, ?_, hnew⟩
    rwa [failed, h.entry] at hold

structure Connectable (tree : BlockTree Block) (s : Chainstate Block) (l : List Block) : Prop where
  climbs : Climbs tree s.tip l
  usable : ∀ a ∈ l, s.linked a = true ∧ s.failed a = false

variable {l : List Block}

theorem Keeps.connectable (h : Keeps tree s t) (hclimbs : Climbs tree t.tip l)
    (hl : ∀ a ∈ l, s.linked a = true ∧ s.failed a = false) : Connectable tree t l := by
  refine ⟨hclimbs, fun a ha => ?_⟩
  rw [linked, failed, h.entry]
  exact hl a ha

theorem Inv.wp_connectBatch {oldWork : Nat} {front : Block} (h : Inv tree [] s)
    (hl : Connectable tree s l) (hfront : ∀ a ∈ l, a ∈ tree.ancestors front) :
    wp (connectBatch tree oldWork front l) (fun progress t => Reached tree oldWork (l.getLastD s.tip) s t progress)
      (Stops tree) s := by
  induction l generalizing s with
  | nil => exact ⟨⟨h, rfl, rfl⟩, rfl⟩
  | cons x l ih =>
    obtain ⟨hlinked, hfailed⟩ := hl.usable x List.mem_cons_self
    rw [connectBatch, wp_bind]
    refine wp.imp (h.wp_connectTip hl.climbs.1 hlinked hfailed) ?_
    intro connected t ht
    refine wp_ite (fun hc => ?_) fun hc => ?_
    · rw [if_pos hc] at ht
      obtain ⟨hkeeps, rfl⟩ := ht
      refine wp.seq hkeeps.inv.wp_pruneBlockIndexCandidates ?_
      rintro _ u ⟨hprune, htip⟩
      have hboth := hkeeps.trans hprune
      refine wp_ite (fun hbetter => ⟨hboth, hbetter⟩) fun _ => ?_
      have hrest : Connectable tree u l :=
        hboth.connectable (htip ▸ hl.climbs.2) fun a ha => hl.usable a (List.mem_cons_of_mem _ ha)
      rw [List.getLastD_cons]
      refine wp.imp (ih hboth.inv hrest fun a ha => hfront a (List.mem_cons_of_mem _ ha)) ?_
      intro progress v hv
      rw [htip] at hv
      exact hv.after hboth
    · rw [if_neg hc] at ht
      obtain ⟨hinv, hlater, hmarked, hbad⟩ := ht
      have hdown := not_mem_ancestors_of_connects hbad (hfront x List.mem_cons_self)
      have hgrow : ∀ b, t.failed b = true → (t.invalidChainFound tree front).failed b = true := fun b hb =>
        failed_setBlockFailureFlags.mpr (Or.inl hb)
      exact ⟨hinv.invalidChainFound (hdown _ hinv.active.connects) fun c hc => hdown c hc.connects,
        hlater.trans ⟨rfl, hgrow⟩, x, h.stored.linked_index hlinked, hfailed, hgrow x hmarked⟩

theorem Inv.wp_connectBatches {oldWork n : Nat} (h : Inv tree [] s) (hl : Connectable tree s l)
    (hn : l.length ≤ n) :
    wp (connectBatches tree oldWork n l) (fun progress t => Reached tree oldWork (l.getLastD s.tip) s t progress)
      (Stops tree) s := by
  induction n generalizing s l with
  | zero =>
    obtain rfl := List.eq_nil_of_length_eq_zero (Nat.le_zero.mp hn)
    exact ⟨⟨h, rfl, rfl⟩, rfl⟩
  | succ n ih =>
    rw [connectBatches]
    cases hfront : (l.take 32).getLast? with
    | none =>
      have hnil : l = [] := by simpa using hfront
      subst hnil
      exact ⟨⟨h, rfl, rfl⟩, rfl⟩
    | some front =>
      have hsplit : Climbs tree s.tip (l.take 32) ∧ Climbs tree ((l.take 32).getLastD s.tip) (l.drop 32) := by
        rw [← climbs_append, List.take_append_drop]
        exact hl.climbs
      have hlast : (l.take 32).getLastD s.tip = front := by
        rw [List.getLastD_eq_getLast?, hfront]
        rfl
      have hbatch : Connectable tree s (l.take 32) :=
        ⟨hsplit.1, fun a ha => hl.usable a (List.mem_of_mem_take ha)⟩
      have hbelow : ∀ a ∈ l.take 32, a ∈ tree.ancestors front := by
        rw [← hlast]
        exact hsplit.1.mem_ancestors.2
      simp only [wp_bind]
      refine wp.imp (h.wp_connectBatch hbatch hbelow) ?_
      intro progress t ht
      cases progress with
      | better => exact ht
      | invalid => exact ht
      | all =>
        obtain ⟨hkeeps, htip⟩ := ht
        have hrest := hkeeps.connectable (htip ▸ hsplit.2) fun a ha => hl.usable a (List.mem_of_mem_drop ha)
        have hshort : (l.drop 32).length ≤ n := by
          rw [List.length_drop]
          omega
        refine wp.imp (ih hkeeps.inv hrest hshort) ?_
        intro progress u hu
        have hend : (l.drop 32).getLastD t.tip = l.getLastD s.tip := by
          rw [htip, ← getLastD_append, List.take_append_drop]
        rw [hend] at hu
        exact hu.after hkeeps

theorem Inv.wp_activateBestChainStep (h : Inv tree [] s) (hb : MostWork tree s b) :
    wp (activateBestChainStep tree b) (fun invalidFound t => if invalidFound then
          Inv tree [] t ∧ Later s t ∧ ∃ x ∈ s.index, s.failed x = false ∧ t.failed x = true
        else Keeps tree s t ∧ (t.tip = b ∨ tree.nChainWork s.tip < tree.nChainWork t.tip))
      (Stops tree) s := by
  obtain ⟨fork, hfork, htip, hmem⟩ := @exists_findFork _ _ tree s b
  simp only [activateBestChainStep, wp_bind, wp_get, hfork]
  refine wp.imp (h.wp_disconnectTo htip (by omega)) ?_
  rintro _ t ⟨hkeeps, ht⟩
  obtain ⟨hclimbs, hlast⟩ := climbs_from_fork hmem
  have hbelow : ∀ a ∈ ((tree.ancestors b).takeWhile (· ≠ fork)).reverse, a ∈ tree.ancestors b := fun a ha =>
    (List.takeWhile_sublist _).subset (List.mem_reverse.mp ha)
  have hindex := h.stored.linked_index hb.linked
  have hall := hkeeps.connectable (ht ▸ hclimbs) fun a ha =>
    ⟨h.stored.linked_ancestors hb.linked a (hbelow a ha),
      (h.inherited.not_failed h.stored hindex hb.failed a (hbelow a ha)).2⟩
  refine wp.imp (hkeeps.inv.wp_connectBatches hall le_rfl) ?_
  intro progress u hu
  rw [ht, hlast] at hu
  have hfrom := hu.after hkeeps
  cases progress with
  | all => exact ⟨hfrom.1, Or.inl hfrom.2⟩
  | better => exact ⟨hfrom.1, Or.inr hfrom.2⟩
  | invalid => exact hfrom
end

def unmarked (s : Chainstate Block) : Finset Block := s.index.toFinset.filter fun b => s.failed b = false

def higher (tree : BlockTree Block) (s : Chainstate Block) : Finset Block :=
  s.index.toFinset.filter fun b => tree.nChainWork s.tip < tree.nChainWork b

/-- A bound on the rounds that are left. -/
def remaining (tree : BlockTree Block) (s : Chainstate Block) : Nat :=
  (unmarked s).card * (s.index.length + 1) + (higher tree s).card

theorem card_higher_le : (higher tree s).card ≤ s.index.length :=
  (Finset.card_filter_le _ _).trans s.index.toFinset_card_le

theorem remaining_le : remaining tree s ≤ s.index.length * (s.index.length + 1) + s.index.length := by
  have hunmarked : (unmarked s).card ≤ s.index.length := (Finset.card_filter_le _ _).trans s.index.toFinset_card_le
  exact Nat.add_le_add (Nat.mul_le_mul_right _ hunmarked) card_higher_le

theorem Later.unmarked_subset (h : Later s t) : unmarked t ⊆ unmarked s := by
  intro b hb
  obtain ⟨hmem, hf⟩ := Finset.mem_filter.mp hb
  exact Finset.mem_filter.mpr ⟨h.index ▸ hmem, eq_false_of_imp (h.failed b) hf⟩

theorem higher_subset (hindex : t.index = s.index) (h : tree.nChainWork s.tip ≤ tree.nChainWork t.tip) :
    higher tree t ⊆ higher tree s := by
  intro b hb
  obtain ⟨hmem, hwork⟩ := Finset.mem_filter.mp hb
  exact Finset.mem_filter.mpr ⟨hindex ▸ hmem, h.trans_lt hwork⟩

theorem remaining_mono (h : Later s t) (hwork : tree.nChainWork s.tip ≤ tree.nChainWork t.tip) :
    remaining tree t ≤ remaining tree s := by
  rw [remaining, h.index]
  exact Nat.add_le_add (Nat.mul_le_mul_right _ (Finset.card_le_card h.unmarked_subset))
    (Finset.card_le_card (higher_subset h.index hwork))

theorem remaining_lt_of_marked (h : Later s t) (hx : x ∈ s.index) (hold : s.failed x = false)
    (hnew : t.failed x = true) : remaining tree t < remaining tree s := by
  have hssub : unmarked t ⊂ unmarked s := by
    refine Finset.ssubset_iff_subset_ne.mpr ⟨h.unmarked_subset, fun heq => ?_⟩
    have hmem : x ∈ unmarked s := Finset.mem_filter.mpr ⟨List.mem_toFinset.mpr hx, hold⟩
    rw [← heq] at hmem
    rw [(Finset.mem_filter.mp hmem).2] at hnew
    cases hnew
  have hless := Finset.card_lt_card hssub
  have hhigher := @card_higher_le _ _ tree t
  rw [h.index] at hhigher
  rw [remaining, h.index]
  calc (unmarked t).card * (s.index.length + 1) + (higher tree t).card
      < (unmarked t).card * (s.index.length + 1) + (s.index.length + 1) := by omega
    _ = ((unmarked t).card + 1) * (s.index.length + 1) := by ring
    _ ≤ (unmarked s).card * (s.index.length + 1) := Nat.mul_le_mul_right _ hless
    _ ≤ (unmarked s).card * (s.index.length + 1) + (higher tree s).card := Nat.le_add_right _ _

theorem remaining_lt_of_better (h : Later s t) (htip : t.tip ∈ s.index)
    (hwork : tree.nChainWork s.tip < tree.nChainWork t.tip) : remaining tree t < remaining tree s := by
  have hssub : higher tree t ⊂ higher tree s := by
    refine Finset.ssubset_iff_subset_ne.mpr ⟨higher_subset h.index hwork.le, fun heq => ?_⟩
    have hmem : t.tip ∈ higher tree s := Finset.mem_filter.mpr ⟨List.mem_toFinset.mpr htip, hwork⟩
    rw [← heq] at hmem
    exact absurd (Finset.mem_filter.mp hmem).2 (lt_irrefl _)
  rw [remaining, h.index]
  exact Nat.add_lt_add_of_le_of_lt (Nat.mul_le_mul_right _ (Finset.card_le_card h.unmarked_subset))
    (Finset.card_lt_card hssub)

section
variable {mostWork : Option Block}

theorem Inv.wp_knownOrMostWork (h : Inv tree [] s) (hmost : ∀ b, mostWork = some b → MostWork tree s b) :
    wp (knownOrMostWork tree mostWork)
      (fun found t => Inv tree [] t ∧ t.tip = s.tip ∧ Later s t ∧ ∃ b, found = some b ∧ MostWork tree t b ∧
        (mostWork = none ∨ mostWork = some b))
      (Stops tree) s := by
  cases mostWork with
  | none =>
    refine wp.imp (h.wp_findMostWorkLoop le_rfl) ?_
    rintro found t ⟨ht, htip, hlater, b, hfound, hb⟩
    exact ⟨ht, htip, hlater, b, hfound, hb, Or.inl rfl⟩
  | some b => exact ⟨h, rfl, ⟨rfl, fun _ hc => hc⟩, b, rfl, hmost b rfl, Or.inr rfl⟩

theorem Inv.wp_activateUntilBetter {startingTip : Block} {n : Nat} {connected : Bool}
    (h : Inv tree [] s) (hmost : ∀ b, mostWork = some b → MostWork tree s b)
    (hn : remaining tree s + 2 ≤ n ∨ (mostWork = some s.tip ∧ 1 ≤ n)) :
    wp (activateUntilBetter tree startingTip n mostWork connected)
      (fun r t => Inv tree [] t ∧ t.index = s.index ∧ (∀ b, r.1 = some b → MostWork tree t b) ∧
        (r.2 = false → r.1 = some t.tip) ∧ (r.1 = some t.tip ∨ remaining tree t < remaining tree s))
      (Stops tree) s := by
  induction n generalizing s mostWork connected with
  | zero => omega
  | succ n ih =>
    rw [activateUntilBetter, wp_bind]
    refine wp.imp (h.wp_knownOrMostWork hmost) ?_
    rintro _ t ⟨ht, htip, hlater, b, rfl, hb, hknown⟩
    have hle : remaining tree t ≤ remaining tree s := remaining_mono hlater (by rw [htip])
    refine wp_ite (fun hbt => ?_) fun hbt => ?_
    · refine ⟨ht, hlater.index, ?_, fun _ => by rw [hbt], Or.inl (by rw [hbt])⟩
      rintro c ⟨⟩
      exact hb
    · have hfuel : remaining tree s + 2 ≤ n + 1 := by
        rcases hn with hn | ⟨hsome, -⟩
        · exact hn
        · rcases hknown with hnone | hsome'
          · rw [hnone] at hsome
            cases hsome
          · rw [hsome, ← htip] at hsome'
            exact absurd (Option.some.inj hsome').symm hbt
      refine wp.seq (ht.wp_activateBestChainStep hb) ?_
      intro invalidFound u hu
      cases invalidFound with
      | true =>
        obtain ⟨hinv, hlater', x, hx, hold, hnew⟩ := hu
        have hless := (remaining_lt_of_marked hlater' hx hold hnew).trans_le hle
        have hindex := hlater'.index.trans hlater.index
        refine wp_ite (fun _ => ?_) fun _ => ⟨hinv, hindex, by simp, by simp, Or.inr hless⟩
        refine wp.imp (ih hinv (by simp) (Or.inl (by omega))) ?_
        rintro r v ⟨hv, hvi, hvm, hvc, hvr⟩
        exact ⟨hv, hvi.trans hindex, hvm, hvc, hvr.imp_right fun hvr => hvr.trans hless⟩
      | false =>
        obtain ⟨hkeeps, hgoal⟩ := hu
        have hindex := hkeeps.index.trans hlater.index
        have hmost' : ∀ c, some b = some c → MostWork tree u c := by
          rintro c ⟨⟩
          exact hb.of_entry hkeeps.entry
        have hstep : u.tip = b ∧ remaining tree u ≤ remaining tree s ∨ remaining tree u < remaining tree s := by
          rcases hgoal with hgoal | hgoal
          · have hbest := hb.best t.tip ht.active.linked ht.active.failed
            have hwork : tree.nChainWork t.tip ≤ tree.nChainWork u.tip := by
              rw [hgoal]
              exact work_le_of_rank_le hbest
            exact Or.inl ⟨hgoal, (remaining_mono hkeeps.later hwork).trans hle⟩
          · have hmem : u.tip ∈ t.index := by
              rw [← hkeeps.index]
              exact hkeeps.inv.stored.linked_index hkeeps.inv.active.linked
            exact Or.inr ((remaining_lt_of_better hkeeps.later hmem hgoal).trans_le hle)
        refine wp_ite (fun _ => ?_) fun _ => ⟨hkeeps.inv, hindex, hmost', by simp, ?_⟩
        · have hrounds : remaining tree u + 2 ≤ n ∨ (some b = some u.tip ∧ 1 ≤ n) := by
            rcases hstep with ⟨heq, -⟩ | hless
            · exact Or.inr ⟨by rw [heq], by omega⟩
            · exact Or.inl (by omega)
          refine wp.imp (ih hkeeps.inv hmost' hrounds) ?_
          rintro r v ⟨hv, hvi, hvm, hvc, hvr⟩
          refine ⟨hv, hvi.trans hindex, hvm, hvc, hvr.imp_right fun hvr => hvr.trans_le ?_⟩
          exact hstep.elim (fun hs => hs.2) le_of_lt
        · rcases hstep with ⟨heq, -⟩ | hless
          · exact Or.inl (by rw [heq]; rfl)
          · exact Or.inr hless

theorem Inv.wp_activateLoop {fuel n : Nat} (h : Inv tree [] s)
    (hmost : ∀ b, mostWork = some b → MostWork tree s b)
    (hfuel : (s.index.length + 1) * (s.index.length + 2) ≤ fuel) (hn : remaining tree s < n) :
    wp (activateLoop tree fuel n mostWork)
      (fun finish t => Inv tree [] t ∧ (finish = .done → MostWork tree t t.tip)) (Stops tree) s := by
  induction n generalizing s mostWork with
  | zero => omega
  | succ n ih =>
    have hbound := @remaining_le _ _ tree s
    have hrounds : remaining tree s + 2 ≤ fuel := by
      refine le_trans ?_ hfuel
      calc remaining tree s + 2 ≤ s.index.length * (s.index.length + 1) + s.index.length + 2 := by omega
        _ ≤ (s.index.length + 1) * (s.index.length + 2) := by ring_nf; omega
    simp only [activateLoop, wp_bind, wp_get]
    refine wp.imp (h.wp_activateUntilBetter hmost (Or.inl hrounds)) ?_
    rintro ⟨aimed, connected⟩ t ⟨ht, hindex, haimed, hidle, hprogress⟩
    refine wp_ite (fun hc => ?_) fun _ => ?_
    · exact ⟨ht, fun _ => haimed t.tip (hidle (by simpa using hc))⟩
    · refine wp_fault_bind fun stop faults => ?_
      have hgo := ht.withFaults faults
      refine wp_ite (fun _ => ⟨hgo, by simp⟩) fun _ => ?_
      refine wp_ite (fun htip => ?_) fun htip => ?_
      · refine wp_fault_bind fun stop faults' => wp_ite (fun _ => ⟨rfl, hgo.withFaults faults'⟩) fun _ => ?_
        exact ⟨hgo.withFaults faults', fun _ => (haimed t.tip htip).of_entry rfl⟩
      · have hless := hprogress.resolve_left htip
        refine ih hgo (fun b hb => (haimed b hb).of_entry rfl) ?_ (show remaining tree t < n by omega)
        rw [← hindex] at hfuel
        exact hfuel

theorem Inv.wp_activateBestChain (h : Inv tree [] s) : wp (activateBestChain tree)
      (fun finish t => Inv tree [] t ∧ (finish = .done → MostWork tree t t.tip)) (Stops tree) s := by
  rw [activateBestChain, wp_bind]
  refine h.wp_activateLoop (by simp) le_rfl ?_
  have hbound := @remaining_le _ _ tree s
  calc remaining tree s ≤ s.index.length * (s.index.length + 1) + s.index.length := hbound
    _ < (s.index.length + 1) * (s.index.length + 2) := by ring_nf; omega
end

end Byze.ChainSelection
