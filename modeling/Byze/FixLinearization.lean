import Mathlib.Data.Finset.Max
import Mathlib.Data.Finset.Union
import Mathlib.Tactic.Tauto

/-! Linearizations of a cluster, and how an order that is not one is made one. -/

namespace Byze.ClusterLinearize

/-- The transactions of a cluster, each with its ancestors and descendants. The
feerates are left out. Cycles are possible: whoever adds the dependencies has to
avoid them. -/
structure DepGraph where
  positions : Finset Nat
  ancestors : Nat → Finset Nat
  descendants : Nat → Finset Nat
  self : ∀ i ∈ positions, i ∈ ancestors i
  closed : ∀ i ∈ positions, ∀ j ∈ ancestors i, j ∈ positions ∧ ancestors j ⊆ ancestors i
  mem_descendants : ∀ i ∈ positions, ∀ j, j ∈ descendants i ↔ j ∈ positions ∧ i ∈ ancestors j

namespace DepGraph

def empty : DepGraph where
  positions := ∅
  ancestors _ := ∅
  descendants _ := ∅
  self := by simp
  closed := by simp
  mem_descendants := by simp

section
variable (depgraph : DepGraph)

theorem available_nonempty :
    (Finset.range (depgraph.positions.card + 1) \ depgraph.positions).Nonempty := by
  obtain ⟨i, hi, hfree⟩ := Finset.exists_mem_notMem_of_card_lt_card
    (s := depgraph.positions) (t := Finset.range (depgraph.positions.card + 1)) (by simp)
  exact ⟨i, Finset.mem_sdiff.mpr ⟨hi, hfree⟩⟩

/-- The first position that is not in use. -/
def newIdx : Nat :=
  (Finset.range (depgraph.positions.card + 1) \ depgraph.positions).min' depgraph.available_nonempty

theorem newIdx_notMem : depgraph.newIdx ∉ depgraph.positions :=
  (Finset.mem_sdiff.mp (Finset.min'_mem _ depgraph.available_nonempty)).2

variable {depgraph} in
theorem newIdx_notMem_ancestors {i : Nat} (hi : i ∈ depgraph.positions) :
    depgraph.newIdx ∉ depgraph.ancestors i :=
  fun h => depgraph.newIdx_notMem (depgraph.closed i hi _ h).1

def addTransaction : DepGraph where
  positions := insert depgraph.newIdx depgraph.positions
  ancestors := Function.update depgraph.ancestors depgraph.newIdx {depgraph.newIdx}
  descendants := Function.update depgraph.descendants depgraph.newIdx {depgraph.newIdx}
  self i hi := by
    rcases Finset.mem_insert.mp hi with rfl | hi
    · simp
    · rw [Function.update_of_ne (ne_of_mem_of_not_mem hi depgraph.newIdx_notMem)]
      exact depgraph.self i hi
  closed i hi j hj := by
    rcases Finset.mem_insert.mp hi with rfl | hi
    · obtain rfl : j = depgraph.newIdx := by simpa using hj
      simp
    · rw [Function.update_of_ne (ne_of_mem_of_not_mem hi depgraph.newIdx_notMem)] at hj ⊢
      obtain ⟨hj, hsub⟩ := depgraph.closed i hi j hj
      rw [Function.update_of_ne (ne_of_mem_of_not_mem hj depgraph.newIdx_notMem)]
      exact ⟨Finset.mem_insert_of_mem hj, hsub⟩
  mem_descendants i hi j := by
    have hnew := depgraph.newIdx_notMem
    rcases Finset.mem_insert.mp hi with rfl | hi
    · by_cases hj : j = depgraph.newIdx
      · simp [hj]
      · simpa [hj] using fun hj => newIdx_notMem_ancestors hj
    · have hne := ne_of_mem_of_not_mem hi hnew
      by_cases hj : j = depgraph.newIdx
      · simp [hj, hne, depgraph.mem_descendants i hi, hnew]
      · simp [hj, hne, depgraph.mem_descendants i hi]

/-- A grandparent stays an ancestor where the parent between is removed. -/
def removeTransactions (del : Finset Nat) : DepGraph where
  positions := depgraph.positions \ del
  ancestors i := depgraph.ancestors i ∩ (depgraph.positions \ del)
  descendants i := depgraph.descendants i ∩ (depgraph.positions \ del)
  self i hi := Finset.mem_inter.mpr ⟨depgraph.self i (Finset.mem_sdiff.mp hi).1, hi⟩
  closed i hi j hj := by
    obtain ⟨hj, hused⟩ := Finset.mem_inter.mp hj
    have hsub := (depgraph.closed i (Finset.mem_sdiff.mp hi).1 j hj).2
    exact ⟨hused, Finset.inter_subset_inter_right hsub⟩
  mem_descendants i hi j := by
    have hiff := depgraph.mem_descendants i (Finset.mem_sdiff.mp hi).1 j
    simp only [Finset.mem_inter, Finset.mem_sdiff, hiff] at hi ⊢
    tauto

/-- The ancestors of the parents that are not ancestors of the child yet. -/
def parAnc (parents : Finset Nat) (child : Nat) : Finset Nat :=
  (parents \ depgraph.ancestors child).biUnion depgraph.ancestors \ depgraph.ancestors child

def addedDescendants (parents : Finset Nat) (child i : Nat) : Finset Nat :=
  if i ∈ depgraph.parAnc parents child then depgraph.descendants i ∪ depgraph.descendants child
  else depgraph.descendants i

def addedAncestors (parents : Finset Nat) (child i : Nat) : Finset Nat :=
  if i ∈ depgraph.addedDescendants parents child child then
    depgraph.ancestors i ∪ depgraph.parAnc parents child
  else depgraph.ancestors i

variable {depgraph} {parents : Finset Nat} {child : Nat}

theorem parAnc_closed (hparents : parents ⊆ depgraph.positions) {j : Nat}
    (hj : j ∈ depgraph.parAnc parents child) : j ∈ depgraph.positions ∧
    depgraph.ancestors j ⊆ depgraph.ancestors child ∪ depgraph.parAnc parents child := by
  obtain ⟨hj, -⟩ := Finset.mem_sdiff.mp hj
  obtain ⟨par, hpar, hj⟩ := Finset.mem_biUnion.mp hj
  obtain ⟨hused, hsub⟩ := depgraph.closed par (hparents (Finset.mem_sdiff.mp hpar).1) j hj
  refine ⟨hused, fun k hk => ?_⟩
  by_cases hanc : k ∈ depgraph.ancestors child
  · exact Finset.mem_union_left _ hanc
  · have hmem := Finset.mem_biUnion.mpr ⟨par, hpar, hsub hk⟩
    exact Finset.mem_union_right _ (Finset.mem_sdiff.mpr ⟨hmem, hanc⟩)

variable (hchild : child ∈ depgraph.positions)

include hchild

theorem addedDescendants_child :
    depgraph.addedDescendants parents child child = depgraph.descendants child := by
  have hself := depgraph.self child hchild
  simp [addedDescendants, parAnc, hself]

theorem mem_addedAncestors {i j : Nat} (hi : i ∈ depgraph.positions) :
    j ∈ depgraph.addedAncestors parents child i ↔ j ∈ depgraph.ancestors i ∨
      child ∈ depgraph.ancestors i ∧ j ∈ depgraph.parAnc parents child := by
  have hdesc := depgraph.mem_descendants child hchild i
  rw [addedAncestors, addedDescendants_child hchild]
  by_cases hmem : child ∈ depgraph.ancestors i
  · simp [hdesc, hi, hmem]
  · simp [hdesc, hmem]

theorem mem_addedDescendants {i : Nat} (hi : i ∈ depgraph.positions) (j : Nat) :
    j ∈ depgraph.addedDescendants parents child i ↔
      j ∈ depgraph.positions ∧ i ∈ depgraph.addedAncestors parents child j := by
  have hdesc := depgraph.mem_descendants i hi j
  have hchl := depgraph.mem_descendants child hchild j
  by_cases hj : j ∈ depgraph.positions
  · rw [mem_addedAncestors hchild hj, addedDescendants]
    by_cases hpar : i ∈ depgraph.parAnc parents child <;> simp [hpar, hdesc, hchl, hj]
  · rw [addedDescendants]
    by_cases hpar : i ∈ depgraph.parAnc parents child <;> simp [hpar, hdesc, hchl, hj]

theorem addedAncestors_closed (hparents : parents ⊆ depgraph.positions) {i j : Nat}
    (hi : i ∈ depgraph.positions) (hj : j ∈ depgraph.addedAncestors parents child i) : j ∈ depgraph.positions ∧
      depgraph.addedAncestors parents child j ⊆ depgraph.addedAncestors parents child i := by
  rcases (mem_addedAncestors hchild hi).mp hj with hj | ⟨hanc, hj⟩
  · obtain ⟨hused, hsub⟩ := depgraph.closed i hi j hj
    refine ⟨hused, fun k hk => (mem_addedAncestors hchild hi).mpr ?_⟩
    exact ((mem_addedAncestors hchild hused).mp hk).imp (@hsub k) (And.imp_left (@hsub child))
  · obtain ⟨hused, hsub⟩ := parAnc_closed hparents hj
    refine ⟨hused, fun k hk => (mem_addedAncestors hchild hi).mpr ?_⟩
    rcases (mem_addedAncestors hchild hused).mp hk with hk | ⟨-, hk⟩
    · exact (Finset.mem_union.mp (hsub hk)).imp (@(depgraph.closed i hi child hanc).2 k) (⟨hanc, ·⟩)
    · exact Or.inr ⟨hanc, hk⟩

omit hchild

/-- Makes the parents, and with them their ancestors, ancestors of the child and
of what descends from it. -/
def addDependencies (depgraph : DepGraph) (parents : Finset Nat) (child : Nat)
    (hchild : child ∈ depgraph.positions) (hparents : parents ⊆ depgraph.positions) : DepGraph where
  positions := depgraph.positions
  ancestors := depgraph.addedAncestors parents child
  descendants := depgraph.addedDescendants parents child
  self i hi := (mem_addedAncestors hchild hi).mpr (Or.inl (depgraph.self i hi))
  closed _ hi _ hj := addedAncestors_closed hchild hparents hi hj
  mem_descendants _ hi := mem_addedDescendants hchild hi
end

variable (depgraph : DepGraph)

abbrev IsAcyclic : Prop :=
  ∀ i ∈ depgraph.positions, depgraph.ancestors i ∩ depgraph.descendants i = {i}

/-- Nothing stands before one of its ancestors. -/
def Topological (linearization : List Nat) : Prop :=
  linearization.Pairwise fun i j => j ∉ depgraph.ancestors i

/-- Moves what `elem` must not stand before to the front of it. -/
def place (elem : Nat) (placeBefore : Finset Nat) : List Nat → List Nat
  | [] => [elem]
  | toSwap :: rest =>
    if placeBefore = ∅ then elem :: toSwap :: rest
    else toSwap :: place elem (placeBefore.erase toSwap) rest

/-- The elements are placed from the last to the first. -/
def fixLinearization : List Nat → List Nat
  | [] => []
  | elem :: rest =>
    place elem (rest.toFinset ∩ depgraph.ancestors elem) (fixLinearization rest)

theorem place_perm (elem : Nat) (placeBefore : Finset Nat) (rest : List Nat) :
    (place elem placeBefore rest).Perm (elem :: rest) := by
  induction rest generalizing placeBefore with
  | nil => exact .refl _
  | cons toSwap rest ih =>
    rw [place]
    split
    · exact .refl _
    · exact ((ih _).cons toSwap).trans (.swap ..)

theorem fixLinearization_perm (linearization : List Nat) :
    (depgraph.fixLinearization linearization).Perm linearization := by
  induction linearization with
  | nil => exact .refl _
  | cons elem rest ih => exact (place_perm _ _ _).trans (ih.cons elem)

variable {depgraph} {elem : Nat} {rest : List Nat}

theorem IsAcyclic.eq (h : depgraph.IsAcyclic) {i j : Nat} (hi : i ∈ depgraph.positions)
    (hj : j ∈ depgraph.ancestors i) (hback : i ∈ depgraph.ancestors j) : j = i := by
  have hmem : j ∈ depgraph.ancestors i ∩ depgraph.descendants i :=
    Finset.mem_inter.mpr ⟨hj, (depgraph.mem_descendants i hi j).mpr ⟨(depgraph.closed i hi j hj).1, hback⟩⟩
  rw [h i hi] at hmem
  exact Finset.mem_singleton.mp hmem

theorem place_topological (h : depgraph.IsAcyclic) (hmem : ∀ i ∈ elem :: rest, i ∈ depgraph.positions)
    (hnodup : (elem :: rest).Nodup) (hrest : depgraph.Topological rest) :
    depgraph.Topological (place elem (rest.toFinset ∩ depgraph.ancestors elem) rest) := by
  induction rest with
  | nil => exact List.pairwise_singleton _ _
  | cons toSwap rest ih =>
    obtain ⟨hfirst, hrest'⟩ := List.pairwise_cons.mp hrest
    rw [place]
    split
    · next hnone =>
      refine List.pairwise_cons.mpr ⟨fun j hj hanc => ?_, hrest⟩
      exact Finset.notMem_empty j (hnone ▸ Finset.mem_inter.mpr ⟨List.mem_toFinset.mpr hj, hanc⟩)
    · next hsome =>
      have hpending : ((toSwap :: rest).toFinset ∩ depgraph.ancestors elem).erase toSwap =
          rest.toFinset ∩ depgraph.ancestors elem := by
        have hswap : toSwap ∉ rest := (List.nodup_cons.mp hnodup.of_cons).1
        ext j
        simp only [Finset.mem_erase, Finset.mem_inter, List.mem_toFinset, List.mem_cons]
        grind
      have helem : elem ∉ depgraph.ancestors toSwap := by
        intro hanc
        have hswap := hmem toSwap (by simp)
        obtain ⟨j, hj⟩ := Finset.nonempty_iff_ne_empty.mpr hsome
        obtain ⟨hj, hjelem⟩ := Finset.mem_inter.mp hj
        have hjswap := (depgraph.closed toSwap hswap elem hanc).2 hjelem
        rcases List.mem_cons.mp (List.mem_toFinset.mp hj) with rfl | hj
        · exact (List.nodup_cons.mp hnodup).1 (by simp [h.eq hswap hanc hjelem])
        · exact hfirst j hj hjswap
      rw [hpending]
      refine List.pairwise_cons.mpr ⟨fun j hj => ?_, ih (by grind) (by grind) hrest'⟩
      rcases List.mem_cons.mp ((place_perm _ _ _).mem_iff.mp hj) with rfl | hj
      · exact helem
      · exact hfirst j hj

/-- The result is a linearization, and the order itself if that is one. -/
theorem fixLinearization_topological (h : depgraph.IsAcyclic) (linearization : List Nat)
    (hnodup : linearization.Nodup) (hall : linearization.toFinset = depgraph.positions) :
    (depgraph.fixLinearization linearization).Perm linearization ∧
      depgraph.Topological (depgraph.fixLinearization linearization) ∧
      (depgraph.Topological linearization → depgraph.fixLinearization linearization = linearization) := by
  refine ⟨depgraph.fixLinearization_perm linearization, ?_⟩
  have hmem : ∀ i ∈ linearization, i ∈ depgraph.positions := fun i hi => hall ▸ List.mem_toFinset.mpr hi
  clear hall
  induction linearization with
  | nil => exact ⟨.nil, fun _ => rfl⟩
  | cons elem rest ih =>
    have hperm := depgraph.fixLinearization_perm rest
    obtain ⟨htopo, hsame⟩ := ih hnodup.of_cons fun i hi => hmem i (List.mem_cons_of_mem _ hi)
    rw [fixLinearization, ← List.toFinset_eq_of_perm _ _ hperm]
    constructor
    · exact place_topological h (fun i hi => hmem i ((hperm.cons elem).mem_iff.mp hi))
        ((hperm.cons elem).nodup_iff.mpr hnodup) htopo
    · intro hvalid
      obtain ⟨hfirst, hrest⟩ := List.pairwise_cons.mp hvalid
      rw [hsame hrest]
      have hnone : rest.toFinset ∩ depgraph.ancestors elem = ∅ := by
        simpa [Finset.eq_empty_iff_forall_notMem] using hfirst
      cases rest with
      | nil => rfl
      | cons j rest => rw [place, if_pos hnone]

/-- The parent 1 of 2 and child of 0 is removed, so that 0 and 2 are left. -/
def sampleGraph : DepGraph :=
  let added := empty.addTransaction.addTransaction.addTransaction
  let chain := (added.addDependencies {0} 1 (by decide) (by decide)).addDependencies {1} 2
    (by decide) (by decide)
  chain.removeTransactions {1}

theorem fixLinearization_sample : sampleGraph.fixLinearization [2, 0] = [0, 2] ∧
    sampleGraph.Topological (sampleGraph.fixLinearization [2, 0]) :=
  ⟨by decide, (fixLinearization_topological (by decide) [2, 0] (by decide) (by decide)).2.1⟩

end DepGraph

end Byze.ClusterLinearize
