import Byze.MiniMiner

/-! What the mock block leaves behind. The miner's entries are those of a set of
transactions that are still to be mined, and its loop removes the ancestors of the
one that is sorted first for as long as they pay the target feerate. -/

namespace Byze.BumpFees
open Worklist MiniMiner
variable {Txid : Type} [LinearOrder Txid]

namespace CTxMemPool
variable (pool : CTxMemPool Txid)

def txids : List Txid := pool.entries.map CTxMemPoolEntry.txid

def sizeOf (txid : Txid) : Int := (pool.find txid).elim 0 CTxMemPoolEntry.txSize

def feeOf (txid : Txid) : Int := (pool.find txid).elim 0 CTxMemPoolEntry.modifiedFee

def vinOf (txid : Txid) : List (OutPoint Txid) := (pool.find txid).elim [] CTxMemPoolEntry.vin

def IsAncestor (x z : Txid) : Prop := Reaches pool.parents x z

variable {pool}

theorem existsTx_iff {x : Txid} : pool.existsTx x = true ↔ x ∈ pool.txids := by
  simp [existsTx, find, txids]

theorem find_txid {e : CTxMemPoolEntry Txid} (he : e ∈ pool.entries) : pool.find e.txid = some e := by
  obtain ⟨e', he'⟩ := Option.isSome_iff_exists.mp (existsTx_iff.mpr (List.mem_map_of_mem he))
  have htxid : e'.txid = e.txid := by simpa using List.find?_some he'
  rw [he', List.inj_on_of_nodup_map pool.nodup (List.mem_of_find?_eq_some he') he htxid]

variable {x y z : Txid}

theorem mem_parents : z ∈ pool.parents x ↔ z ∈ (pool.vinOf x).map OutPoint.hash ∧ z ∈ pool.txids := by
  rw [parents, List.mem_filter, existsTx_iff, vinOf]
  cases pool.find x <;> rfl

theorem mem_txids_of_parents (h : z ∈ pool.parents x) : x ∈ pool.txids := by
  rw [← existsTx_iff, existsTx]
  cases hx : pool.find x with
  | none =>
    rw [mem_parents, vinOf, hx] at h
    cases h.1
  | some e => rfl

theorem mem_children : y ∈ pool.children x ↔ x ∈ pool.parents y := by
  simp only [children, List.mem_map, List.mem_filter, decide_eq_true_eq]
  constructor
  · rintro ⟨e, ⟨-, he⟩, rfl⟩
    exact he
  · intro h
    obtain ⟨e, he, rfl⟩ := List.mem_map.mp (mem_txids_of_parents h)
    exact ⟨e, ⟨he, h⟩, rfl⟩

theorem reaches_children_iff : Reaches pool.children x y ↔ pool.IsAncestor y x := by
  have hswap : (fun a b => b ∈ pool.children a) = Function.swap fun a b => b ∈ pool.parents a := by
    funext a b
    exact propext mem_children
  rw [Reaches, hswap, Relation.reflTransGen_swap]
  rfl

theorem IsAncestor.mem_txids (h : pool.IsAncestor x z) (hx : x ∈ pool.txids) : z ∈ pool.txids := by
  cases h with
  | refl => exact hx
  | tail _ hz => exact (mem_parents.mp hz).2

theorem IsAncestor.mem_txids_left (h : pool.IsAncestor x z) (hz : z ∈ pool.txids) : x ∈ pool.txids := by
  rcases Relation.ReflTransGen.cases_head h with rfl | ⟨y, hy, -⟩
  · exact hz
  · exact mem_txids_of_parents hy

omit [LinearOrder Txid] in
theorem length_txids : pool.txids.length = pool.entries.length := List.length_map _

theorem mem_getAncestors (hx : x ∈ pool.txids) : z ∈ pool.getAncestors x ↔ pool.IsAncestor x z := by
  rw [getAncestors, mem_collect_iff pool.txids ?_ length_txids.le]
  · simp [IsAncestor]
  · intro r hr y hy
    obtain rfl := List.mem_singleton.mp hr
    exact IsAncestor.mem_txids hy hx

theorem mem_getDescendants (hx : x ∈ pool.txids) : y ∈ pool.getDescendants x ↔ pool.IsAncestor y x := by
  rw [getDescendants, mem_collect_iff pool.txids ?_ length_txids.le]
  · simp [reaches_children_iff]
  · intro r hr y hy
    obtain rfl := List.mem_singleton.mp hr
    exact IsAncestor.mem_txids_left (reaches_children_iff.mp hy) hx

theorem reaches_neighbours_mem_txids
    (h : Reaches (fun txid => pool.parents txid ++ pool.children txid) x y) (hx : x ∈ pool.txids) :
    y ∈ pool.txids := by
  cases h with
  | refl => exact hx
  | tail _ hy =>
    rcases List.mem_append.mp hy with hy | hy
    · exact (mem_parents.mp hy).2
    · exact mem_txids_of_parents (mem_children.mp hy)

theorem mem_connected {starts : List Txid} (hstarts : ∀ r ∈ starts, r ∈ pool.txids) {y : Txid} :
    y ∈ pool.connected starts ↔
      ∃ r ∈ starts, Reaches (fun txid => pool.parents txid ++ pool.children txid) r y :=
  mem_collect_iff pool.txids (fun r hr _ hy => reaches_neighbours_mem_txids hy (hstarts r hr)) length_txids.le

theorem connected_closed {starts : List Txid} (hstarts : ∀ r ∈ starts, r ∈ pool.txids)
    (h : pool.IsAncestor x z) : x ∈ pool.connected starts ↔ z ∈ pool.connected starts := by
  induction h with
  | refl => rfl
  | tail _ hz ih =>
    rw [ih, mem_connected hstarts, mem_connected hstarts]
    constructor
    · rintro ⟨r, hr, hreach⟩
      exact ⟨r, hr, hreach.tail (List.mem_append_left _ hz)⟩
    · rintro ⟨r, hr, hreach⟩
      exact ⟨r, hr, hreach.tail (List.mem_append_right _ (mem_children.mpr hz))⟩

theorem sizeOf_pos {x : Txid} (hx : x ∈ pool.txids) : 0 < pool.sizeOf x := by
  rw [← existsTx_iff, existsTx, Option.isSome_iff_exists] at hx
  obtain ⟨e, he⟩ := hx
  rw [sizeOf, he]
  exact pool.txSize_pos e (List.mem_of_find?_eq_some he)

theorem feeOf_nonneg (hfees : ∀ e ∈ pool.entries, 0 ≤ e.modifiedFee) (x : Txid) : 0 ≤ pool.feeOf x := by
  cases hx : pool.find x with
  | none => simp [feeOf, hx]
  | some e => simpa [feeOf, hx] using hfees e (List.mem_of_find?_eq_some hx)

end CTxMemPool

section
variable (pool : CTxMemPool Txid)

open Classical in
noncomputable def ancestorsIn (R : Finset Txid) (x : Txid) : Finset Txid := R.filter (pool.IsAncestor x)

/-- The entry of a transaction where the transactions of a set are still to be
mined. -/
noncomputable def entryOf (R : Finset Txid) (x : Txid) : MiniMinerMempoolEntry Txid where
  txid := x
  vin := pool.vinOf x
  vsizeIndividual := pool.sizeOf x
  vsizeWithAncestors := ∑ z ∈ ancestorsIn pool R x, pool.sizeOf z
  feeIndividual := pool.feeOf x
  feeWithAncestors := ∑ z ∈ ancestorsIn pool R x, pool.feeOf z

def IsBest (R : Finset Txid) (x : Txid) : Prop :=
  x ∈ R ∧ ∀ y ∈ R, y ≠ x → (entryOf pool R x).before (entryOf pool R y) = true

def PaysLess (target : CFeeRate) (R : Finset Txid) (x : Txid) : Prop :=
  ∑ z ∈ ancestorsIn pool R x, pool.feeOf z < target.getFee (∑ z ∈ ancestorsIn pool R x, pool.sizeOf z)

/-- Mining what is sorted first for as long as it pays the target feerate leaves
the second set of the first one. -/
inductive LeavesBehind (target : CFeeRate) : Finset Txid → Finset Txid → Prop
  | all : LeavesBehind target ∅ ∅
  | stop {R : Finset Txid} {x : Txid} : IsBest pool R x → PaysLess pool target R x →
      LeavesBehind target R R
  | mine {R L : Finset Txid} {x : Txid} : IsBest pool R x → ¬ PaysLess pool target R x →
      LeavesBehind target (R \ ancestorsIn pool R x) L → LeavesBehind target R L

variable {pool} {R : Finset Txid}

theorem mem_ancestorsIn {x z : Txid} : z ∈ ancestorsIn pool R x ↔ z ∈ R ∧ pool.IsAncestor x z := by
  simp [ancestorsIn]

theorem self_mem_ancestorsIn {x : Txid} (hx : x ∈ R) : x ∈ ancestorsIn pool R x :=
  mem_ancestorsIn.mpr ⟨hx, Relation.ReflTransGen.refl⟩

structure DescendantClosed (pool : CTxMemPool Txid) (R : Finset Txid) : Prop where
  mem_txids : ∀ z ∈ R, z ∈ pool.txids
  descendant : ∀ z ∈ R, ∀ x, pool.IsAncestor x z → x ∈ R

theorem DescendantClosed.sdiff (h : DescendantClosed pool R) (x : Txid) :
    DescendantClosed pool (R \ ancestorsIn pool R x) where
  mem_txids z hz := h.mem_txids z (Finset.mem_sdiff.mp hz).1
  descendant z hz y hy := by
    obtain ⟨hzR, hzx⟩ := Finset.mem_sdiff.mp hz
    refine Finset.mem_sdiff.mpr ⟨h.descendant z hzR y hy, fun hyx => hzx ?_⟩
    exact mem_ancestorsIn.mpr ⟨hzR, (mem_ancestorsIn.mp hyx).2.trans hy⟩

theorem LeavesBehind.closed {target : CFeeRate} {R L : Finset Txid} (h : LeavesBehind pool target R L)
    (hR : DescendantClosed pool R) : DescendantClosed pool L := by
  induction h with
  | all => exact hR
  | stop _ _ => exact hR
  | mine _ _ _ ih => exact ih (hR.sdiff _)

/-- The state of the miner where a set is still to be mined. -/
structure Tracks (pool : CTxMemPool Txid) (R : Finset Txid) (m : MiniMiner Txid) : Prop where
  closed : DescendantClosed pool R
  entries : ∃ order : List Txid, order.Nodup ∧ order.toFinset = R ∧ m.entries = order.map (entryOf pool R)
  descendants : ∀ x ∈ R, ∀ y, y ∈ m.descendants x ↔ pool.IsAncestor y x

theorem find?_map_entryOf (order : List Txid) (x : Txid) :
    ((order.map (entryOf pool R)).find? fun e => e.txid = x) =
      if x ∈ order then some (entryOf pool R x) else none := by
  induction order with
  | nil => rfl
  | cons y order ih =>
    by_cases hxy : y = x
    · subst hxy
      simp [entryOf]
    · have hyx : ¬ x = y := fun h => hxy h.symm
      simp only [List.mem_cons, hyx, false_or, ← ih]
      simp [entryOf, hxy]

variable {m : MiniMiner Txid}

section
variable (h : Tracks pool R m)
include h

theorem Tracks.find (x : Txid) : m.find x = if x ∈ R then some (entryOf pool R x) else none := by
  obtain ⟨order, -, rfl, hentries⟩ := h.entries
  rw [find, hentries, find?_map_entryOf]
  simp

theorem Tracks.mem_parents {x z : Txid} (hx : x ∈ R) : z ∈ m.parents x ↔ z ∈ R ∧ z ∈ pool.parents x := by
  rw [parents, h.find, if_pos hx, List.mem_filter, h.find, CTxMemPool.mem_parents]
  change z ∈ (pool.vinOf x).map OutPoint.hash ∧ _ ↔ _
  by_cases hz : z ∈ R
  · simp [hz, h.closed.mem_txids z hz]
  · simp [hz]

theorem Tracks.reaches_iff {x z : Txid} (hx : x ∈ R) :
    Reaches m.parents x z ↔ z ∈ R ∧ pool.IsAncestor x z := by
  constructor
  · intro hreach
    induction hreach with
    | refl => exact ⟨hx, Relation.ReflTransGen.refl⟩
    | tail _ hz ih =>
      obtain ⟨hzR, hparent⟩ := (h.mem_parents ih.1).mp hz
      exact ⟨hzR, ih.2.tail hparent⟩
  · rintro ⟨hz, hanc⟩
    induction hanc with
    | refl => exact Relation.ReflTransGen.refl
    | tail hy hyz ih =>
      rename_i y z
      have hyR : y ∈ R := h.closed.descendant z hz y (Relation.ReflTransGen.single hyz)
      exact (ih hyR).tail ((h.mem_parents hyR).mpr ⟨hz, hyz⟩)

theorem Tracks.mem_ancestorsOf {starts : List Txid} (hstarts : ∀ r ∈ starts, r ∈ R)
    {z : Txid} : z ∈ m.ancestorsOf starts ↔ z ∈ R ∧ ∃ r ∈ starts, pool.IsAncestor r z := by
  obtain ⟨order, -, horder, hentries⟩ := h.entries
  rw [ancestorsOf, mem_collect_iff order]
  · constructor
    · rintro ⟨r, hr, hreach⟩
      obtain ⟨hz, hanc⟩ := (h.reaches_iff (hstarts r hr)).mp hreach
      exact ⟨hz, r, hr, hanc⟩
    · rintro ⟨hz, r, hr, hanc⟩
      exact ⟨r, hr, (h.reaches_iff (hstarts r hr)).mpr ⟨hz, hanc⟩⟩
  · intro r hr y hy
    rw [← List.mem_toFinset, horder]
    exact ((h.reaches_iff (hstarts r hr)).mp hy).1
  · simp [hentries]

theorem Tracks.ancestorsOf_toFinset {x : Txid} (hx : x ∈ R) :
    (m.ancestorsOf [x]).toFinset = ancestorsIn pool R x := by
  ext z
  rw [List.mem_toFinset, h.mem_ancestorsOf (by simpa using hx), mem_ancestorsIn]
  simp

theorem Tracks.filterMap_find {txids : List Txid} (ht : ∀ x ∈ txids, x ∈ R) :
    txids.filterMap m.find = txids.map (entryOf pool R) := by
  induction txids with
  | nil => rfl
  | cons x txids ih =>
    rw [List.filterMap_cons, h.find, if_pos (ht x List.mem_cons_self), List.map_cons,
      ih fun y hy => ht y (List.mem_cons_of_mem x hy)]

open Classical in
theorem Tracks.deductAncestors {mined : List Txid} (hm : ∀ z ∈ mined, z ∈ R) {x : Txid}
    (e : MiniMinerMempoolEntry Txid) (he : e.txid = x) :
    m.deductAncestors (mined.map (entryOf pool R)) e = { e with
        vsizeWithAncestors := e.vsizeWithAncestors - ((mined.filter (pool.IsAncestor x)).map pool.sizeOf).sum
        feeWithAncestors := e.feeWithAncestors - ((mined.filter (pool.IsAncestor x)).map pool.feeOf).sum } := by
  induction mined generalizing e with
  | nil => simp [MiniMiner.deductAncestors]
  | cons z mined ih =>
    have hrest := ih fun y hy => hm y (List.mem_cons_of_mem z hy)
    have hstep : m.deductAncestors ((z :: mined).map (entryOf pool R)) e =
        m.deductAncestors (mined.map (entryOf pool R))
          (if e.txid ∈ m.descendants z then e.updateAncestorState (-pool.sizeOf z) (-pool.feeOf z) else e) := rfl
    have hdesc := h.descendants z (hm z List.mem_cons_self) x
    rw [← he] at hdesc
    rw [hstep]
    by_cases hz : pool.IsAncestor x z
    · rw [if_pos (hdesc.mpr (he ▸ hz)), hrest _ (show (e.updateAncestorState _ _).txid = x from he)]
      simp only [MiniMinerMempoolEntry.updateAncestorState, List.filter_cons, hz, decide_true, if_true,
        List.map_cons, List.sum_cons]
      congr 1 <;> ring
    · rw [if_neg (mt hdesc.mp (he ▸ hz)), hrest e he]
      simp [hz]
end

theorem sum_ancestorsIn_sdiff {P : Finset Txid} (hP : P ⊆ R) (f : Txid → Int) (x : Txid) :
    ∑ z ∈ ancestorsIn pool (R \ P) x, f z =
      ∑ z ∈ ancestorsIn pool R x, f z - ∑ z ∈ ancestorsIn pool P x, f z := by
  have hsplit : ancestorsIn pool (R \ P) x = ancestorsIn pool R x \ ancestorsIn pool P x := by
    ext z
    simp only [Finset.mem_sdiff, mem_ancestorsIn]
    tauto
  have hsub : ancestorsIn pool P x ⊆ ancestorsIn pool R x := by
    intro z hz
    obtain ⟨hzP, hanc⟩ := mem_ancestorsIn.mp hz
    exact mem_ancestorsIn.mpr ⟨hP hzP, hanc⟩
  rw [hsplit, Finset.sum_sdiff_eq_sub hsub]

open Classical in
theorem sum_filter_isAncestor {mined : List Txid} (hn : mined.Nodup) (f : Txid → Int) (x : Txid) :
    ((mined.filter (pool.IsAncestor x)).map f).sum = ∑ z ∈ ancestorsIn pool mined.toFinset x, f z := by
  rw [← List.sum_toFinset f (hn.filter _), ancestorsIn]
  simp

theorem Tracks.deductAncestors_entryOf (h : Tracks pool R m) {mined : List Txid} (hn : mined.Nodup)
    (hm : ∀ z ∈ mined, z ∈ R) (x : Txid) :
    m.deductAncestors (mined.map (entryOf pool R)) (entryOf pool R x) =
      entryOf pool (R \ mined.toFinset) x := by
  have hsub : mined.toFinset ⊆ R := fun z hz => hm z (List.mem_toFinset.mp hz)
  rw [h.deductAncestors hm (entryOf pool R x) rfl, entryOf, entryOf]
  simp [sum_filter_isAncestor hn, sum_ancestorsIn_sdiff hsub]

theorem Tracks.deleteAncestorPackage (h : Tracks pool R m) {x : Txid} (hx : x ∈ R) :
    Tracks pool (R \ ancestorsIn pool R x) (m.deleteAncestorPackage (m.ancestorsOf [x])) := by
  have hset := h.ancestorsOf_toFinset hx
  have hnodup : (m.ancestorsOf [x]).Nodup := nodup_collect _
  have hmem : ∀ z ∈ m.ancestorsOf [x], z ∈ R := by
    intro z hz
    rw [← List.mem_toFinset, hset] at hz
    exact (mem_ancestorsIn.mp hz).1
  refine ⟨h.closed.sdiff x, ?_, fun z hz y => h.descendants z (Finset.mem_sdiff.mp hz).1 y⟩
  obtain ⟨order, horder, hR, hentries⟩ := h.entries
  refine ⟨order.filter (· ∉ m.ancestorsOf [x]), horder.filter _, ?_, ?_⟩
  · rw [← hset, ← hR]
    ext z
    simp
  · simp only [MiniMiner.deleteAncestorPackage, h.filterMap_find hmem, hentries, List.map_map]
    rw [List.filter_map]
    have hfun : (m.deductAncestors ((m.ancestorsOf [x]).map (entryOf pool R)) ∘ entryOf pool R) =
        entryOf pool (R \ ancestorsIn pool R x) := by
      funext z
      simp [h.deductAncestors_entryOf hnodup hmem, hset]
    rw [hfun]
    rfl
end

section

open OrderDual

namespace MiniMinerMempoolEntry

def Sized (e : MiniMinerMempoolEntry Txid) : Prop := 0 < e.vsizeIndividual ∧ 0 < e.vsizeWithAncestors

omit [LinearOrder Txid] in
theorem Sized.minFeerate {e : MiniMinerMempoolEntry Txid} (h : e.Sized) : 0 < e.minFeerate.size := by
  rw [MiniMinerMempoolEntry.minFeerate, FeeFrac.min]
  split
  · exact h.1
  · exact h.2

noncomputable def rank (e : MiniMinerMempoolEntry Txid) : (ℚ ×ₗ Intᵒᵈ)ᵒᵈ ×ₗ Txid :=
  toLex (toDual e.minFeerate.rank, e.txid)

theorem before_iff {a b : MiniMinerMempoolEntry Txid} (ha : a.Sized) (hb : b.Sized) :
    a.before b = true ↔ a.rank < b.rank := by
  have hinj := @FeeFrac.rank_injective a.minFeerate b.minFeerate hb.minFeerate
  rw [rank, rank, Prod.Lex.toLex_lt_toLex, toDual_lt_toDual,
    FeeFrac.rank_lt_iff hb.minFeerate ha.minFeerate, before]
  by_cases h : a.minFeerate = b.minFeerate
  · have hirrefl : ¬ b.minFeerate.lt b.minFeerate = true := by
      rw [← FeeFrac.rank_lt_iff hb.minFeerate hb.minFeerate]
      exact lt_irrefl _
    simp [h, hirrefl]
  · have hne : ¬ toDual a.minFeerate.rank = toDual b.minFeerate.rank := fun heq => h (hinj (toDual.injective heq))
    simp [h, hne]

end MiniMinerMempoolEntry
end

section
variable {pool : CTxMemPool Txid} {R : Finset Txid} {m : MiniMiner Txid}

theorem DescendantClosed.sized (h : DescendantClosed pool R) {x : Txid} (hx : x ∈ R) :
    (entryOf pool R x).Sized := by
  refine ⟨CTxMemPool.sizeOf_pos (h.mem_txids x hx), Finset.sum_pos ?_ ⟨x, self_mem_ancestorsIn hx⟩⟩
  intro z hz
  exact CTxMemPool.sizeOf_pos (h.mem_txids z (mem_ancestorsIn.mp hz).1)

theorem DescendantClosed.isBest_iff (h : DescendantClosed pool R) {x : Txid} :
    IsBest pool R x ↔ x ∈ R ∧ ∀ y ∈ R, (entryOf pool R x).rank ≤ (entryOf pool R y).rank := by
  refine and_congr_right fun hx => forall₂_congr fun y hy => ?_
  rw [MiniMinerMempoolEntry.before_iff (h.sized hx) (h.sized hy)]
  constructor
  · intro hlt
    by_cases hyx : y = x
    · rw [hyx]
    · exact (hlt hyx).le
  · intro hle hyx
    refine lt_of_le_of_ne hle fun heq => hyx ?_
    exact (Prod.mk.inj (toLex.injective heq)).2.symm

theorem DescendantClosed.isBest_unique (h : DescendantClosed pool R) {x y : Txid} (hx : IsBest pool R x)
    (hy : IsBest pool R y) : x = y := by
  rw [h.isBest_iff] at hx hy
  have heq := le_antisymm (hx.2 y hy.1) (hy.2 x hx.1)
  exact (Prod.mk.inj (toLex.injective heq)).2

theorem LeavesBehind.unique {target : CFeeRate} {L L' : Finset Txid} (h : LeavesBehind pool target R L)
    (h' : LeavesBehind pool target R L') (hR : DescendantClosed pool R) : L = L' := by
  induction h with
  | all =>
    cases h' with
    | all => rfl
    | stop hx _ => exact absurd hx.1 (Finset.notMem_empty _)
    | mine hx _ _ => exact absurd hx.1 (Finset.notMem_empty _)
  | stop hx hless =>
    cases h' with
    | all => rfl
    | stop _ _ => rfl
    | mine hy hpays _ =>
      obtain rfl := hR.isBest_unique hx hy
      exact absurd hless hpays
  | mine hx hpays _ ih =>
    cases h' with
    | all => exact absurd hx.1 (Finset.notMem_empty _)
    | stop hy hless =>
      obtain rfl := hR.isBest_unique hx hy
      exact absurd hless hpays
    | mine hy _ hrest =>
      obtain rfl := hR.isBest_unique hx hy
      exact ih hrest (hR.sdiff _)

structure SameRequest (m t : MiniMiner Txid) : Prop where
  requested : t.requested = m.requested
  bumpFees : t.bumpFees = m.bumpFees

theorem Tracks.mineBest_cases (h : Tracks pool R m) (target : CFeeRate) :
    (R = ∅ ∧ m.mineBest (some target) = none) ∨
    ∃ x, IsBest pool R x ∧ ((PaysLess pool target R x ∧ m.mineBest (some target) = none) ∨
        (¬ PaysLess pool target R x ∧
          m.mineBest (some target) = some (m.deleteAncestorPackage (m.ancestorsOf [x])))) := by
  obtain ⟨order, -, horder, hentries⟩ := h.entries
  rw [mineBest]
  cases hbest : bestEntry m.entries with
  | none =>
    rw [bestEntry, Best.best_eq_none, hentries, List.map_eq_nil_iff] at hbest
    subst hbest
    exact Or.inl ⟨horder.symm, rfl⟩
  | some best =>
    rw [hentries] at hbest
    have hmem : ∀ y, y ∈ order ↔ y ∈ R := by
      intro y
      simp [← horder]
    have hsized : ∀ e ∈ order.map (entryOf pool R), e.Sized := by
      intro e he
      obtain ⟨y, hy, rfl⟩ := List.mem_map.mp he
      exact h.closed.sized ((hmem y).mp hy)
    obtain ⟨hin, hle⟩ := Best.best_le MiniMinerMempoolEntry.rank
      (fun a ha b hb => MiniMinerMempoolEntry.before_iff (hsized a ha) (hsized b hb)) hbest
    obtain ⟨x, hx, rfl⟩ := List.mem_map.mp hin
    have hisBest : IsBest pool R x := h.closed.isBest_iff.mpr ⟨(hmem x).mp hx, fun y hy =>
      hle _ (List.mem_map_of_mem ((hmem y).mpr hy))⟩
    refine Or.inr ⟨x, hisBest, ?_⟩
    by_cases hless : PaysLess pool target R x
    · refine Or.inl ⟨hless, if_pos ?_⟩
      exact decide_eq_true hless
    · refine Or.inr ⟨hless, if_neg ?_⟩
      rw [PaysLess] at hless
      exact fun h => hless (of_decide_eq_true h)

theorem Tracks.mineLoop {C : Finset Txid} (target : CFeeRate) (rounds : Nat) (h : Tracks pool R m)
    (hblock : ∀ z ∈ C, z ∈ m.inBlock ↔ z ∉ R) (hrounds : R.card ≤ rounds) :
    ∃ L, LeavesBehind pool target R L ∧ Tracks pool L (mineLoop (some target) rounds m) ∧
      (∀ z ∈ C, z ∈ (mineLoop (some target) rounds m).inBlock ↔ z ∉ L) ∧
      SameRequest m (mineLoop (some target) rounds m) := by
  induction rounds generalizing R m with
  | zero =>
    obtain rfl := Finset.card_eq_zero.mp (Nat.le_zero.mp hrounds)
    exact ⟨∅, LeavesBehind.all, h, hblock, rfl, rfl⟩
  | succ rounds ih =>
    rw [mineLoop]
    rcases h.mineBest_cases target with ⟨rfl, hstop⟩ | ⟨x, hx, ⟨hless, hstop⟩ | ⟨hpays, hmine⟩⟩
    · rw [hstop]
      exact ⟨∅, LeavesBehind.all, h, hblock, rfl, rfl⟩
    · rw [hstop]
      exact ⟨R, LeavesBehind.stop hx hless, h, hblock, rfl, rfl⟩
    · rw [hmine]
      have hset := h.ancestorsOf_toFinset hx.1
      have hblock' : ∀ z ∈ C, z ∈ (m.deleteAncestorPackage (m.ancestorsOf [x])).inBlock ↔
          z ∉ R \ ancestorsIn pool R x := by
        intro z hz
        rw [← hset, MiniMiner.deleteAncestorPackage, List.mem_append, hblock z hz, Finset.mem_sdiff,
          List.mem_toFinset]
        tauto
      have hcard : (R \ ancestorsIn pool R x).card ≤ rounds := by
        have hless : (R \ ancestorsIn pool R x).card < R.card := by
          refine Finset.card_lt_card (Finset.sdiff_ssubset ?_ ⟨x, self_mem_ancestorsIn hx.1⟩)
          exact fun z hz => (mem_ancestorsIn.mp hz).1
        omega
      obtain ⟨L, hleaves, htracks, hin, hsame⟩ := ih (h.deleteAncestorPackage hx.1) hblock' hcard
      exact ⟨L, LeavesBehind.mine hx hpays hleaves, htracks, hin, hsame.requested, hsame.bumpFees⟩
end

end Byze.BumpFees
