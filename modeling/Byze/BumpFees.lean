import Byze.MockBlock

/-! The bump fee of several outputs against the sum of their own bump fees. Both are
what transactions that the mock block leaves behind fall short of the target feerate
by, and they differ where outputs share such transactions. -/

namespace Byze.BumpFees
open Worklist MiniMiner BumpFees.CTxMemPool
variable {Txid : Type} [LinearOrder Txid]

def setBumpFeeDiscount (summedBumpFees combinedBumpFee : Int) : Option Int :=
  let bumpFeeOverestimate := summedBumpFees - combinedBumpFee
  if bumpFeeOverestimate ≠ 0 then
    if 0 ≤ bumpFeeOverestimate then some bumpFeeOverestimate else none
  else some 0

theorem setBumpFeeDiscount_isSome_iff {summed combined : Int} :
    (setBumpFeeDiscount summed combined).isSome = true ↔ combined ≤ summed := by
  simp only [setBumpFeeDiscount]
  split_ifs <;> simp <;> omega

theorem getFee_eq_ceil {r : CFeeRate} (hfee : 0 ≤ r.feerate.fee) (n : Int) :
    r.getFee n = ⌈r.rate * n⌉ := by
  simp only [CFeeRate.getFee, CFeeRate.rate]
  split_ifs with hsize hneg
  · simp [hsize]
  · omega
  · obtain ⟨d, hd⟩ := Int.eq_ofNat_of_zero_le r.size_nonneg
    have hfloor := Rat.floor_intCast_div_natCast (-(r.feerate.fee * n)) d
    have hceil : (r.feerate.fee : ℚ) / r.feerate.size * n = -((-(r.feerate.fee * n) : Int) / (d : ℚ)) := by
      rw [hd]
      push_cast
      ring
    rw [hceil, Int.ceil_neg, hfloor, FeeFrac.evaluateFeeUp, hd]

theorem getFee_nonpos {r : CFeeRate} (hfee : r.feerate.fee < 0) {n : Int} (hn : 0 ≤ n) :
    r.getFee n ≤ 0 := by
  simp only [CFeeRate.getFee]
  split_ifs with hsize hneg
  · exact le_rfl
  · norm_num
  · have hprod : 0 ≤ -(r.feerate.fee * n) := by nlinarith
    have hdiv := Int.ediv_nonneg hprod r.size_nonneg
    rw [FeeFrac.evaluateFeeUp]
    omega

section
variable {pool : CTxMemPool Txid} {e : CTxMemPoolEntry Txid}

theorem CTxMemPool.txid_of_find {x : Txid} (h : pool.find x = some e) : e.txid = x := by
  simpa using List.find?_some h

theorem CTxMemPool.sum_filterMap_find (f : CTxMemPoolEntry Txid → Int) (txids : List Txid) :
    ((txids.filterMap pool.find).map f).sum = (txids.map fun z => (pool.find z).elim 0 f).sum := by
  induction txids with
  | nil => rfl
  | cons x txids ih =>
    cases hx : pool.find x with
    | none => simp [hx, ih]
    | some e => simp [hx, ih]

theorem MiniMiner.ofEntry_eq {C : List Txid} (hC : ∀ x z, pool.IsAncestor x z → x ∈ C → z ∈ C) {x : Txid}
    (hx : x ∈ C) (he : pool.find x = some e) :
    ofEntry pool e = entryOf pool C.toFinset x := by
  have hmem : x ∈ pool.txids := existsTx_iff.mp (by rw [existsTx, he]; rfl)
  have hnodup : (pool.getAncestors x).Nodup := nodup_collect _
  have hset : (pool.getAncestors x).toFinset = ancestorsIn pool C.toFinset x := by
    ext z
    rw [List.mem_toFinset, mem_getAncestors hmem, mem_ancestorsIn, List.mem_toFinset]
    exact ⟨fun h => ⟨hC x z h hx, h⟩, And.right⟩
  have hsum : ∀ f : CTxMemPoolEntry Txid → Int, (((pool.getAncestors x).filterMap pool.find).map f).sum =
      ∑ z ∈ ancestorsIn pool C.toFinset x, (pool.find z).elim 0 f := by
    intro f
    rw [sum_filterMap_find, ← hset, List.sum_toFinset _ hnodup]
  simp only [ofEntry, calculateAncestorData, txid_of_find he, hsum, entryOf,
    vinOf, CTxMemPool.sizeOf, feeOf, he]
  rfl

structure Unspent (pool : CTxMemPool Txid) (outpoints : List (OutPoint Txid)) : Prop where
  nodup : outpoints.Nodup
  existsTx : ∀ o ∈ outpoints, pool.existsTx o.hash = true
  getConflictTx : ∀ o ∈ outpoints, pool.getConflictTx o = none

def clusterOf (pool : CTxMemPool Txid) (outpoints : List (OutPoint Txid)) : List Txid :=
  pool.connected (outpoints.map OutPoint.hash)

variable {outpoints : List (OutPoint Txid)}

theorem clusterOf_nil : clusterOf pool [] = [] := by
  refine List.eq_nil_iff_forall_not_mem.mpr fun z hz => ?_
  obtain ⟨r, hr, -⟩ := (mem_connected (by simp)).mp hz
  cases hr

theorem Unspent.mem_txids (h : Unspent pool outpoints) : ∀ r ∈ outpoints.map OutPoint.hash, r ∈ pool.txids := by
  intro r hr
  obtain ⟨o, ho, rfl⟩ := List.mem_map.mp hr
  exact existsTx_iff.mp (h.existsTx o ho)

theorem Unspent.hash_mem_clusterOf (h : Unspent pool outpoints) {o : OutPoint Txid} (ho : o ∈ outpoints) :
    o.hash ∈ clusterOf pool outpoints :=
  (mem_connected h.mem_txids).mpr ⟨o.hash, List.mem_map_of_mem ho, Relation.ReflTransGen.refl⟩

theorem Unspent.clusterOf_mem_txids (h : Unspent pool outpoints) {z : Txid} (hz : z ∈ clusterOf pool outpoints) :
    z ∈ pool.txids := by
  obtain ⟨r, hr, hreach⟩ := (mem_connected h.mem_txids).mp hz
  exact reaches_neighbours_mem_txids hreach (h.mem_txids r hr)

theorem Unspent.closed (h : Unspent pool outpoints) : DescendantClosed pool (clusterOf pool outpoints).toFinset where
  mem_txids _ hz := h.clusterOf_mem_txids (List.mem_toFinset.mp hz)
  descendant _ hz _ hx :=
    List.mem_toFinset.mpr ((connected_closed h.mem_txids hx).mpr (List.mem_toFinset.mp hz))

structure Starts (pool : CTxMemPool Txid) (outpoints : List (OutPoint Txid)) (m : MiniMiner Txid) : Prop where
  readyToCalculate : m.readyToCalculate = true
  requested : m.requested = outpoints
  bumpFees : m.bumpFees = []
  inBlock : m.inBlock = []
  tracks : Tracks pool (clusterOf pool outpoints).toFinset m

section
variable (h : Unspent pool outpoints)
include h

theorem Unspent.entries : ((clusterOf pool outpoints).filterMap pool.find).map (ofEntry pool) =
      (clusterOf pool outpoints).map (entryOf pool (clusterOf pool outpoints).toFinset) := by
  have hclosed : ∀ x z, pool.IsAncestor x z → x ∈ clusterOf pool outpoints → z ∈ clusterOf pool outpoints :=
    fun x z hxz hx => (connected_closed h.mem_txids hxz).mp hx
  have hsub : ∀ part : List Txid, (∀ z ∈ part, z ∈ clusterOf pool outpoints) →
      (part.filterMap pool.find).map (ofEntry pool) =
        part.map (entryOf pool (clusterOf pool outpoints).toFinset) := by
    intro part hpart
    induction part with
    | nil => rfl
    | cons z part ih =>
      have hz := hpart z List.mem_cons_self
      have hfind := existsTx_iff.mpr (h.clusterOf_mem_txids hz)
      obtain ⟨e, he⟩ := Option.isSome_iff_exists.mp hfind
      simp [he, ofEntry_eq hclosed hz he, ih fun y hy => hpart y (List.mem_cons_of_mem z hy)]
  exact hsub _ fun _ hz => hz

theorem Unspent.toBeReplaced :
    (outpoints.flatMap fun o => (pool.getConflictTx o).elim [] pool.getDescendants) = [] := by
  rw [List.flatMap_eq_nil_iff]
  intro o ho
  rw [h.getConflictTx o ho]
  rfl

theorem Unspent.filter_existsTx : (outpoints.filter fun o => pool.existsTx o.hash) = outpoints :=
  List.filter_eq_self.mpr h.existsTx

theorem Unspent.filter_unknown : (outpoints.filter fun o => !pool.existsTx o.hash) = [] := by
  rw [List.filter_eq_nil_iff]
  intro o ho
  simp [h.existsTx o ho]

theorem Unspent.gatherClusters : pool.gatherClusters (outpoints.map OutPoint.hash) =
      if 500 < (clusterOf pool outpoints).length then [] else clusterOf pool outpoints := by
  have hfilter := List.filter_eq_self.mpr fun r hr => existsTx_iff.mpr (h.mem_txids r hr)
  rw [CTxMemPool.gatherClusters, hfilter]
  rfl

theorem Unspent.starts (hsize : (clusterOf pool outpoints).length ≤ 500) :
    Starts pool outpoints (new pool outpoints) := by
  have hcluster := h.gatherClusters
  rw [if_neg (by omega)] at hcluster
  have hnodup : (clusterOf pool outpoints).Nodup := nodup_collect _
  simp only [new, h.filter_existsTx, h.filter_unknown, h.toBeReplaced, hcluster]
  by_cases hempty : outpoints = []
  · subst hempty
    refine ⟨rfl, rfl, rfl, rfl, h.closed, ⟨[], List.nodup_nil, ?_, rfl⟩, ?_⟩
    · rw [clusterOf_nil]
    · rw [clusterOf_nil]
      intro x hx
      exact absurd hx (Finset.notMem_empty x)
  · obtain ⟨o, ho⟩ := List.exists_mem_of_ne_nil _ hempty
    have hne := List.ne_nil_of_mem (h.hash_mem_clusterOf ho)
    rw [if_neg hempty, if_neg hne]
    have hall : ∀ l : List Txid, l.filter (· ∉ ([] : List Txid)) = l := by simp
    refine ⟨rfl, by simp, by simp, rfl, h.closed, ⟨_, hnodup, rfl, ?_⟩, ?_⟩
    · simp [h.entries]
    · intro x hx y
      simp only [hall]
      exact mem_getDescendants (h.clusterOf_mem_txids (List.mem_toFinset.mp hx))

theorem Unspent.not_ready (hsize : 500 < (clusterOf pool outpoints).length) :
    (new pool outpoints).readyToCalculate = false := by
  have hcluster := h.gatherClusters
  rw [if_pos hsize] at hcluster
  have hempty : outpoints ≠ [] := by
    rintro rfl
    rw [clusterOf_nil, List.length_nil] at hsize
    omega
  simp [new, h.filter_existsTx, hcluster, hempty]
end
end

section
variable {pool : CTxMemPool Txid} {outpoints : List (OutPoint Txid)} {m : MiniMiner Txid} {target : CFeeRate}
  {L : Finset Txid}

structure Built (pool : CTxMemPool Txid) (outpoints : List (OutPoint Txid)) (L : Finset Txid)
    (t : MiniMiner Txid) : Prop where
  requested : t.requested = outpoints
  bumpFees : t.bumpFees = []
  inBlock : ∀ o ∈ outpoints, o.hash ∈ t.inBlock ↔ o.hash ∉ L
  tracks : Tracks pool L t

theorem Starts.built (h : Starts pool outpoints m) (hunspent : Unspent pool outpoints) (target : CFeeRate) :
    ∃ L, LeavesBehind pool target (clusterOf pool outpoints).toFinset L ∧
      Built pool outpoints L (m.buildMockTemplate (some target)) := by
  have hblock : ∀ z ∈ (clusterOf pool outpoints).toFinset,
      z ∈ m.inBlock ↔ z ∉ (clusterOf pool outpoints).toFinset := by
    intro z hz
    simp [h.inBlock, List.mem_toFinset.mp hz]
  have hrounds : (clusterOf pool outpoints).toFinset.card ≤ m.entries.length := by
    obtain ⟨order, -, horder, hentries⟩ := h.tracks.entries
    rw [hentries, List.length_map, ← horder]
    exact order.toFinset_card_le
  obtain ⟨L, hleaves, htracks, hin, hsame⟩ := h.tracks.mineLoop target _ hblock hrounds
  refine ⟨L, hleaves, hsame.requested.trans h.requested, hsame.bumpFees.trans h.bumpFees, ?_, ?_⟩
  · intro o ho
    exact hin o.hash (List.mem_toFinset.mpr (hunspent.hash_mem_clusterOf ho))
  · exact ⟨htracks.closed, htracks.entries, htracks.descendants⟩

theorem find?_map_outpoint {f : OutPoint Txid → Int} (outpoints : List (OutPoint Txid)) (o : OutPoint Txid) :
    ((outpoints.map fun o => (o, f o)).find? fun p => p.1 = o) =
      if o ∈ outpoints then some (o, f o) else none := by
  induction outpoints with
  | nil => rfl
  | cons a outpoints ih =>
    by_cases hao : a = o
    · simp [hao]
    · have hoa : ¬ o = a := fun h => hao h.symm
      simp [hao, ih, hoa]

theorem Built.summedBumpFees (h : Built pool outpoints L (m.buildMockTemplate (some target)))
    (hready : m.readyToCalculate = true) :
    BumpFees.summedBumpFees (m.calculateBumpFees target) outpoints =
      (outpoints.map fun o => if o.hash ∈ L then bumpFee target (entryOf pool L o.hash) else 0).sum := by
  have hleft : (outpoints.filter fun o => o.hash ∉ (m.buildMockTemplate (some target)).inBlock).filterMap
      (fun o => ((m.buildMockTemplate (some target)).find o.hash).map fun e => (o, bumpFee target e)) =
      (outpoints.filter fun o => o.hash ∈ L).map fun o => (o, bumpFee target (entryOf pool L o.hash)) := by
    rw [← List.filterMap_eq_map, List.filterMap_filter, List.filterMap_filter]
    refine List.filterMap_congr fun o ho => ?_
    have hin := h.inBlock o ho
    rw [h.tracks.find]
    simp [hin]
  have hmined : (outpoints.filter fun o => o.hash ∈ (m.buildMockTemplate (some target)).inBlock) =
      outpoints.filter fun o => o.hash ∉ L := by
    refine List.filter_congr fun o ho => ?_
    simp [h.inBlock o ho]
  simp only [calculateBumpFees, hready, h.requested, h.bumpFees, hleft, hmined]
  refine congrArg List.sum (List.map_congr_left fun o ho => ?_)
  simp only [Bool.not_true, Bool.false_eq_true, if_false, List.find?_append, find?_map_outpoint,
    List.mem_filter, ho]
  by_cases hL : o.hash ∈ L <;> simp [hL]

open Classical in
noncomputable def leftAncestors (pool : CTxMemPool Txid) (L : Finset Txid) (outpoints : List (OutPoint Txid)) :
    Finset Txid := L.filter fun z => ∃ o ∈ outpoints, pool.IsAncestor o.hash z

theorem Built.calculateTotalBumpFees (h : Built pool outpoints L (m.buildMockTemplate (some target)))
    (hready : m.readyToCalculate = true) :
    m.calculateTotalBumpFees target =
      some (target.getFee (∑ z ∈ leftAncestors pool L outpoints, pool.sizeOf z) -
        ∑ z ∈ leftAncestors pool L outpoints, pool.feeOf z) := by
  classical
  set t := m.buildMockTemplate (some target) with ht
  set start := (t.requested.map OutPoint.hash).filter fun txid => txid ∉ t.inBlock ∧ (t.find txid).isSome with hstart
  have hmem : ∀ r, r ∈ start ↔ ∃ o ∈ outpoints, o.hash = r ∧ r ∈ L := by
    intro r
    simp only [hstart, h.requested, List.mem_filter, List.mem_map, decide_eq_true_eq, h.tracks.find]
    constructor
    · rintro ⟨⟨o, ho, rfl⟩, hin, -⟩
      exact ⟨o, ho, rfl, by simpa [h.inBlock o ho] using hin⟩
    · rintro ⟨o, ho, rfl, hL⟩
      exact ⟨⟨o, ho, rfl⟩, by simpa [h.inBlock o ho] using hL, by simp [hL]⟩
  have hsub : ∀ r ∈ start, r ∈ L := by
    intro r hr
    obtain ⟨_, _, _, hL⟩ := (hmem r).mp hr
    exact hL
  have hset : (t.ancestorsOf start).toFinset = leftAncestors pool L outpoints := by
    ext z
    rw [List.mem_toFinset, h.tracks.mem_ancestorsOf hsub, leftAncestors, Finset.mem_filter]
    refine and_congr_right fun hz => ?_
    constructor
    · rintro ⟨r, hr, hanc⟩
      obtain ⟨o, ho, rfl, -⟩ := (hmem r).mp hr
      exact ⟨o, ho, hanc⟩
    · rintro ⟨o, ho, hanc⟩
      exact ⟨o.hash, (hmem _).mpr ⟨o, ho, rfl, h.tracks.closed.descendant z hz _ hanc⟩, hanc⟩
  have hnodup : (t.ancestorsOf start).Nodup := nodup_collect _
  have hin : ∀ z ∈ t.ancestorsOf start, z ∈ L := fun z hz => ((h.tracks.mem_ancestorsOf hsub).mp hz).1
  simp only [MiniMiner.calculateTotalBumpFees, hready]
  rw [h.tracks.filterMap_find hin, ← hset, List.sum_toFinset _ hnodup, List.sum_toFinset _ hnodup]
  simp only [List.map_map]
  rfl
end

section
variable (pool : CTxMemPool Txid) (target : CFeeRate)

def surplus (z : Txid) : ℚ := pool.feeOf z - target.rate * pool.sizeOf z

open Classical in
noncomputable def shares (outpoints : List (OutPoint Txid)) (z : Txid) : Nat :=
  outpoints.countP fun o => pool.IsAncestor o.hash z

/-- The amount of a left transaction against what its ancestors fall short by: the
amount is rounded up, and it is never less than for the transaction alone. -/
noncomputable def roundedUp (L : Finset Txid) (x : Txid) : ℚ :=
  ⌈max (-∑ z ∈ ancestorsIn pool L x, surplus pool target z) (-surplus pool target x)⌉ +
    ∑ z ∈ ancestorsIn pool L x, surplus pool target z

/-- What the left transactions pay beyond the target feerate, once for each further
output that shares them, is covered by what the amounts are rounded up by. -/
def SharedSurplusCovered (outpoints : List (OutPoint Txid)) (L : Finset Txid) : Prop :=
  ∑ z ∈ L, ((shares pool outpoints z - 1 : Nat) : ℚ) * surplus pool target z ≤
    (outpoints.map fun o => if o.hash ∈ L then roundedUp pool target L o.hash else 0).sum

variable {pool target} {L : Finset Txid} {outpoints : List (OutPoint Txid)}

variable (pool) in
theorem getFee_sub_sum (hfee : 0 ≤ target.feerate.fee) (A : Finset Txid) :
    target.getFee (∑ z ∈ A, pool.sizeOf z) - ∑ z ∈ A, pool.feeOf z = ⌈-∑ z ∈ A, surplus pool target z⌉ := by
  rw [getFee_eq_ceil hfee, ← Int.ceil_sub_intCast]
  simp only [surplus, Finset.sum_sub_distrib, ← Finset.mul_sum]
  push_cast
  rw [neg_sub]

theorem bumpFee_entryOf (hfee : 0 ≤ target.feerate.fee) (x : Txid) : (bumpFee target (entryOf pool L x) : ℚ) =
      roundedUp pool target L x - ∑ z ∈ ancestorsIn pool L x, surplus pool target z := by
  have hself := getFee_sub_sum pool hfee {x}
  simp only [Finset.sum_singleton] at hself
  have hall := getFee_sub_sum pool hfee (ancestorsIn pool L x)
  simp only [bumpFee, entryOf, hself, hall, roundedUp]
  rw [Monotone.map_max Int.ceil_mono]
  ring

/-- The ancestors of every output, by how many outputs share them. -/
theorem sum_ancestorsIn_outpoints (hL : DescendantClosed pool L) (f : Txid → ℚ) :
    (outpoints.map fun o => if o.hash ∈ L then ∑ z ∈ ancestorsIn pool L o.hash, f z else 0).sum =
      ∑ z ∈ L, (shares pool outpoints z : ℚ) * f z := by
  classical
  induction outpoints with
  | nil => simp [shares]
  | cons o outpoints ih =>
    have hfirst : (if o.hash ∈ L then ∑ z ∈ ancestorsIn pool L o.hash, f z else 0) =
        ∑ z ∈ L, if pool.IsAncestor o.hash z then f z else 0 := by
      by_cases ho : o.hash ∈ L
      · rw [if_pos ho, ancestorsIn, Finset.sum_filter]
      · rw [if_neg ho, eq_comm]
        refine Finset.sum_eq_zero fun z hz => if_neg fun hanc => ho ?_
        exact hL.descendant z hz _ hanc
    rw [List.map_cons, List.sum_cons, ih, hfirst, ← Finset.sum_add_distrib]
    refine Finset.sum_congr rfl fun z _ => ?_
    by_cases hanc : pool.IsAncestor o.hash z
    · simp only [shares, List.countP_cons, hanc, decide_true]
      push_cast
      ring
    · simp [shares, hanc]

theorem sum_leftAncestors (f : Txid → ℚ) : ∑ z ∈ leftAncestors pool L outpoints, f z =
      ∑ z ∈ L, (shares pool outpoints z : ℚ) * f z - ∑ z ∈ L, ((shares pool outpoints z - 1 : Nat) : ℚ) * f z := by
  rw [← Finset.sum_sub_distrib, leftAncestors, Finset.sum_filter]
  refine Finset.sum_congr rfl fun z _ => ?_
  have hshares : (∃ o ∈ outpoints, pool.IsAncestor o.hash z) ↔ 0 < shares pool outpoints z := by
    simp [shares]
  by_cases hz : ∃ o ∈ outpoints, pool.IsAncestor o.hash z
  · rw [if_pos hz, Nat.cast_sub (hshares.mp hz)]
    ring
  · have hzero : shares pool outpoints z = 0 := Nat.eq_zero_of_not_pos (mt hshares.mpr hz)
    rw [if_neg hz, hzero]
    simp

theorem LeavesBehind.empty_of_neg {R : Finset Txid} (h : LeavesBehind pool target R L)
    (hR : DescendantClosed pool R) (hfees : ∀ e ∈ pool.entries, 0 ≤ e.modifiedFee)
    (hneg : target.feerate.fee < 0) : L = ∅ := by
  induction h with
  | all => rfl
  | stop _ hless =>
    rename_i R x _
    have hsize : 0 ≤ ∑ z ∈ ancestorsIn pool R x, pool.sizeOf z := Finset.sum_nonneg fun z hz =>
      (sizeOf_pos (hR.mem_txids z (mem_ancestorsIn.mp hz).1)).le
    have hfee : 0 ≤ ∑ z ∈ ancestorsIn pool R x, pool.feeOf z :=
      Finset.sum_nonneg fun z _ => feeOf_nonneg hfees z
    exact absurd hless (not_lt.mpr ((getFee_nonpos hneg hsize).trans hfee))
  | mine _ _ _ ih => exact ih (hR.sdiff _)

theorem total_le_summed_iff (hfee : 0 ≤ target.feerate.fee) (hL : DescendantClosed pool L) :
    target.getFee (∑ z ∈ leftAncestors pool L outpoints, pool.sizeOf z) -
        ∑ z ∈ leftAncestors pool L outpoints, pool.feeOf z ≤
      (outpoints.map fun o => if o.hash ∈ L then bumpFee target (entryOf pool L o.hash) else 0).sum ↔
    SharedSurplusCovered pool target outpoints L := by
  have hcast : (((outpoints.map fun o =>
        if o.hash ∈ L then bumpFee target (entryOf pool L o.hash) else 0).sum : Int) : ℚ) =
      (outpoints.map fun o => if o.hash ∈ L then roundedUp pool target L o.hash else 0).sum -
        (outpoints.map fun o =>
          if o.hash ∈ L then ∑ z ∈ ancestorsIn pool L o.hash, surplus pool target z else 0).sum := by
    rw [eq_sub_iff_add_eq, Int.cast_list_sum, List.map_map, ← List.sum_map_add]
    refine congrArg List.sum (List.map_congr_left fun o _ => ?_)
    by_cases ho : o.hash ∈ L
    · simp [ho, bumpFee_entryOf hfee]
    · simp [ho]
  rw [getFee_sub_sum pool hfee, Int.ceil_le, hcast, sum_ancestorsIn_outpoints hL, sum_leftAncestors, SharedSurplusCovered]
  constructor <;> intro h <;> linarith
end

/-- The combined bump fee is at most the sum, and the assertion on the discount
holds, just if the miner gives up on the cluster or what the transactions left
behind pay beyond the target feerate is covered where outputs share them. -/
theorem calculateTotalBumpFees_le_iff {pool : CTxMemPool Txid} (hfees : ∀ e ∈ pool.entries, 0 ≤ e.modifiedFee)
    {outpoints : List (OutPoint Txid)} (hunspent : Unspent pool outpoints) (target : CFeeRate) :
    (∀ total, (new pool outpoints).calculateTotalBumpFees target = some total →
      total ≤ summedBumpFees ((new pool outpoints).calculateBumpFees target) outpoints ∧
      (setBumpFeeDiscount
        (summedBumpFees ((new pool outpoints).calculateBumpFees target) outpoints) total).isSome = true) ↔
    500 < (clusterOf pool outpoints).length ∨
    ∃ L, LeavesBehind pool target (clusterOf pool outpoints).toFinset L ∧
      SharedSurplusCovered pool target outpoints L := by
  simp only [setBumpFeeDiscount_isSome_iff, and_self]
  by_cases hsize : 500 < (clusterOf pool outpoints).length
  · have hnone : (new pool outpoints).calculateTotalBumpFees target = none := by
      rw [MiniMiner.calculateTotalBumpFees, hunspent.not_ready hsize]
      rfl
    simp [hnone, hsize]
  · have hstarts := hunspent.starts (not_lt.mp hsize)
    obtain ⟨L, hleaves, hbuilt⟩ := hstarts.built hunspent target
    have hclosed := hleaves.closed hunspent.closed
    have hunique : (∃ L', LeavesBehind pool target (clusterOf pool outpoints).toFinset L' ∧
        SharedSurplusCovered pool target outpoints L') ↔ SharedSurplusCovered pool target outpoints L := by
      constructor
      · rintro ⟨L', hleaves', hcovered⟩
        rwa [hleaves.unique hleaves' hunspent.closed]
      · exact fun hcovered => ⟨L, hleaves, hcovered⟩
    rw [hunique, hbuilt.calculateTotalBumpFees hstarts.readyToCalculate,
      hbuilt.summedBumpFees hstarts.readyToCalculate]
    simp only [Option.some.injEq, forall_eq', hsize, false_or]
    by_cases hfee : 0 ≤ target.feerate.fee
    · exact total_le_summed_iff hfee hclosed
    · obtain rfl := hleaves.empty_of_neg hunspent.closed hfees (not_le.mp hfee)
      have hzero : target.getFee 0 = 0 := by simp [CFeeRate.getFee, FeeFrac.evaluateFeeUp]
      simp [SharedSurplusCovered, leftAncestors, hzero]

def sampleTx (txid : Nat) (parents : List Nat) (txSize modifiedFee : Int) : CTxMemPoolEntry Nat :=
  ⟨txid, parents.map fun p => ⟨p, txid⟩, txSize, modifiedFee⟩

def samplePool : CTxMemPool Nat where
  entries := [sampleTx 0 [] 1700 1700, sampleTx 1 [0] 200 17000, sampleTx 2 [0] 200 3000,
    sampleTx 3 [1, 2] 100 900, sampleTx 4 [] 200 200, sampleTx 5 [3, 4] 100 500, sampleTx 6 [] 200 200,
    sampleTx 7 [3, 6] 100 500]
  nodup := by decide
  txSize_pos := by decide

def sampleTarget : CFeeRate := ⟨⟨10000, 1000⟩, by decide, by decide⟩

theorem samplePool_unspent {outpoints : List (OutPoint Nat)} (h : outpoints ⊆ [⟨5, 0⟩, ⟨7, 0⟩])
    (hnodup : outpoints.Nodup) : Unspent samplePool outpoints := by
  have hall : ∀ o ∈ [(⟨5, 0⟩ : OutPoint Nat), ⟨7, 0⟩],
      samplePool.existsTx o.hash = true ∧ samplePool.getConflictTx o = none := by decide
  exact ⟨hnodup, fun o ho => (hall o (h ho)).1, fun o ho => (hall o (h ho)).2⟩

theorem samplePool_fees : ∀ e ∈ samplePool.entries, 0 ≤ e.modifiedFee := by decide

/-- One output alone. -/
theorem calculateTotalBumpFees_le_sample : 500 < (clusterOf samplePool [⟨5, 0⟩]).length ∨
    ∃ L, LeavesBehind samplePool sampleTarget (clusterOf samplePool [⟨5, 0⟩]).toFinset L ∧
      SharedSurplusCovered samplePool sampleTarget [⟨5, 0⟩] L := by
  refine (calculateTotalBumpFees_le_iff samplePool_fees
    (samplePool_unspent (by decide) (by decide)) sampleTarget).mp ?_
  rintro total ⟨⟩
  decide

/-- Each output is credited with the surplus of the shared ancestors, which counts
once for both: 1700 and 1700 against 4000. -/
theorem calculateTotalBumpFees_exceeds_sum :
    (∀ e ∈ samplePool.entries, 0 ≤ e.modifiedFee) ∧ Unspent samplePool [⟨5, 0⟩, ⟨7, 0⟩] ∧
    (new samplePool [⟨5, 0⟩, ⟨7, 0⟩]).calculateTotalBumpFees sampleTarget = some 4000 ∧
    summedBumpFees ((new samplePool [⟨5, 0⟩, ⟨7, 0⟩]).calculateBumpFees sampleTarget)
      [⟨5, 0⟩, ⟨7, 0⟩] = 3400 ∧
    setBumpFeeDiscount 3400 4000 = none := by
  refine ⟨samplePool_fees, samplePool_unspent (by decide) (by decide), ?_, ?_, by decide⟩
  · decide +kernel
  · decide +kernel

end Byze.BumpFees
