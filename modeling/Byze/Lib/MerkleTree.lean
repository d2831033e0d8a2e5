import Mathlib.Algebra.Ring.Nat
import Mathlib.Data.Nat.Log
import Mathlib.Data.List.Basic

/-! Hash trees over a list of leaves that are built level by level, where the
last node of an odd level is paired with itself. The top determines the leaves
as long as no level pairs two equal nodes, and a leaf with its siblings
determines the top. -/

namespace MerkleTree
variable {α : Type*}

def pairs : List α → List (α × α)
  | [] => []
  | [a] => [(a, a)]
  | a :: b :: l => (a, b) :: pairs l

def Repeats : List α → Prop
  | a :: b :: l => a = b ∨ Repeats l
  | _ => False

theorem length_pairs (l : List α) : (pairs l).length = (l.length + 1) / 2 := by
  induction l using pairs.induct with
  | case1 => simp [pairs]
  | case2 a => simp [pairs]
  | case3 a b l ih =>
    simp only [pairs, List.length_cons]
    omega

theorem getElem?_pairs (l : List α) (i : Nat) :
    (pairs l)[i]? = l[2 * i]?.map fun a => (a, l[2 * i + 1]?.getD a) := by
  induction l using pairs.induct generalizing i with
  | case1 => simp [pairs]
  | case2 a =>
    cases i with
    | zero => simp [pairs]
    | succ i => simp [pairs]
  | case3 a b l ih =>
    cases i with
    | zero => simp [pairs]
    | succ i => simp [pairs, Nat.mul_succ, ih]

theorem pairs_inj {l m : List α} (hl : ¬ Repeats l) (hm : ¬ Repeats m) (h : pairs l = pairs m) : l = m := by
  induction l using pairs.induct generalizing m with
  | case1 =>
    have hlength := congrArg List.length h
    simp only [length_pairs, List.length_nil] at hlength
    exact (List.length_eq_zero_iff.mp (by omega)).symm
  | case2 a =>
    match m, h with
    | [b], h => simpa [pairs] using h
    | b :: c :: m, h =>
      simp only [pairs, List.cons.injEq, Prod.mk.injEq] at h
      exact absurd (Or.inl (h.1.1.symm.trans h.1.2)) hm
  | case3 a b l ih =>
    match m, h with
    | [c], h =>
      simp only [pairs, List.cons.injEq, Prod.mk.injEq] at h
      exact absurd (Or.inl (h.1.1.trans h.1.2.symm)) hl
    | c :: d :: m, h =>
      simp only [pairs, List.cons.injEq, Prod.mk.injEq] at h
      have htail := ih (fun hr => hl (Or.inr hr)) (fun hr => hm (Or.inr hr)) h.2
      rw [h.1.1, h.1.2, htail]

theorem map_inj_of_mem {β γ : Type*} {f : β → γ} {xs ys : List β}
    (hf : ∀ x ∈ xs, ∀ y ∈ ys, f x = f y → x = y) (h : xs.map f = ys.map f) : xs = ys := by
  induction xs generalizing ys with
  | nil => exact (List.map_eq_nil_iff.mp h.symm).symm
  | cons x xs ih =>
    cases ys with
    | nil => simp at h
    | cons y ys =>
      simp only [List.map_cons, List.cons.injEq] at h
      have hhead := hf x (by simp) y (by simp) h.1
      have htail := ih (fun a ha b hb => hf a (by simp [ha]) b (by simp [hb])) h.2
      rw [hhead, htail]

variable (pair : α → α → α)

def level (l : List α) : List α := (pairs l).map fun p => pair p.1 p.2

def depth (l : List α) : Nat := Nat.clog 2 l.length

theorem length_level (l : List α) : (level pair l).length = (l.length + 1) / 2 := by
  simp [level, length_pairs]

theorem length_iterate_level (l : List α) (k : Nat) :
    ((level pair)^[k] l).length = (l.length + (2 ^ k - 1)) / 2 ^ k := by
  induction k with
  | zero => simp
  | succ k ih =>
    have hpos := Nat.two_pow_pos k
    have hsplit : (l.length + (2 ^ (k + 1) - 1)) / 2 ^ (k + 1) =
        (l.length + (2 ^ k - 1) + 1 * 2 ^ k) / 2 ^ k / 2 := by
      rw [Nat.div_div_eq_div_mul]
      congr 1
      omega
    rw [Function.iterate_succ_apply', length_level, ih, hsplit, Nat.add_mul_div_right _ _ hpos]

variable {l m : List α}

theorem one_lt_length_iterate {k : Nat} (hk : k < depth l) : 1 < ((level pair)^[k] l).length := by
  have hlt : 2 ^ k < l.length := (Nat.lt_clog_iff_pow_lt (by omega)).mp hk
  rw [length_iterate_level]
  have hpos := Nat.two_pow_pos k
  exact (Nat.le_div_iff_mul_le hpos).mpr (by omega)

/-- The pairs that are hashed on the way from the leaves to the top. -/
def Hashed (l : List α) (p : α × α) : Prop := ∃ k < depth l, p ∈ pairs ((level pair)^[k] l)

/-- No level below the top pairs two equal nodes. -/
def Unrepeated (l : List α) : Prop := ∀ k < depth l, ¬ Repeats ((level pair)^[k] l)

theorem depth_of_two_le (h : 2 ≤ l.length) : depth l = depth (level pair l) + 1 := by
  rw [depth, Nat.clog_of_two_le (by omega) h, depth, length_level,
    show l.length + 2 - 1 = l.length + 1 by omega]

theorem unrepeated_of_two_le (h : 2 ≤ l.length) :
    Unrepeated pair l ↔ ¬ Repeats l ∧ Unrepeated pair (level pair l) := by
  simp only [Unrepeated, depth_of_two_le pair h]
  constructor
  · intro hl
    exact ⟨hl 0 (by omega), fun k hk => hl (k + 1) (by omega)⟩
  · rintro ⟨hzero, hl⟩ k hk
    cases k with
    | zero => exact hzero
    | succ k => exact hl k (by omega)

variable {pair} (hl : Unrepeated pair l) (hm : Unrepeated pair m)
  (hinj : ∀ p q, Hashed pair l p → Hashed pair m q → pair p.1 p.2 = pair q.1 q.2 → p = q)
  (htop : (level pair)^[depth l] l = (level pair)^[depth m] m)

include hl hm hinj htop in
theorem iterate_level_eq_of_top_eq (j : Nat) (hjl : j ≤ depth l) (hjm : j ≤ depth m) :
    (level pair)^[depth l - j] l = (level pair)^[depth m - j] m := by
  induction j with
  | zero => exact htop
  | succ j ih =>
    have hstep := ih (by omega) (by omega)
    rw [show depth l - j = (depth l - (j + 1)) + 1 by omega,
      show depth m - j = (depth m - (j + 1)) + 1 by omega,
      Function.iterate_succ_apply', Function.iterate_succ_apply'] at hstep
    have hkl : depth l - (j + 1) < depth l := by omega
    have hkm : depth m - (j + 1) < depth m := by omega
    have hpairs := map_inj_of_mem (fun p hp q hq => hinj p q ⟨_, hkl, hp⟩ ⟨_, hkm, hq⟩) hstep
    exact pairs_inj (hl _ hkl) (hm _ hkm) hpairs

theorem mem_iterate_level {k : Nat} {a : α} (hk : k < depth l)
    (ha : a ∈ (level pair)^[k + 1] l) : ∃ p, Hashed pair l p ∧ pair p.1 p.2 = a := by
  rw [Function.iterate_succ_apply', level, List.mem_map] at ha
  obtain ⟨p, hp, heq⟩ := ha
  exact ⟨p, ⟨k, hk, hp⟩, heq⟩

include hl hm hinj htop in
theorem leaves_eq_of_depth_le (hne : l ≠ []) (hleaf : ∀ a ∈ l, ∀ p, Hashed pair m p → pair p.1 p.2 ≠ a)
    (hle : depth l ≤ depth m) : l = m := by
  have hbottom := iterate_level_eq_of_top_eq hl hm hinj htop (depth l) le_rfl hle
  rw [Nat.sub_self] at hbottom
  cases hgap : depth m - depth l with
  | zero => simpa [hgap] using hbottom
  | succ k =>
    -- the leaves of the shallower tree would be hashes of the deeper one
    obtain ⟨a, ha⟩ := List.exists_mem_of_ne_nil l hne
    have hmem : a ∈ (level pair)^[k + 1] m := by rw [← hgap, ← hbottom]; exact ha
    obtain ⟨p, hp, heq⟩ := mem_iterate_level (by omega) hmem
    exact absurd heq (hleaf a ha p hp)

include hl hm hinj htop in
/-- Leaves that are no hashes of the tree, and hashes that do not collide: the
top gives back the leaves. -/
theorem leaves_eq_of_top_eq (hlne : l ≠ []) (hmne : m ≠ [])
    (hleafl : ∀ a ∈ l, ∀ p, Hashed pair m p → pair p.1 p.2 ≠ a)
    (hleafm : ∀ a ∈ m, ∀ p, Hashed pair l p → pair p.1 p.2 ≠ a) : l = m := by
  rcases Nat.le_total (depth l) (depth m) with hle | hle
  · exact leaves_eq_of_depth_le hl hm hinj htop hlne hleafl hle
  · exact (leaves_eq_of_depth_le hm hl
      (fun p q hp hq heq => (hinj q p hq hp heq.symm).symm) htop.symm hmne hleafm hle).symm

section
variable (pair l)

def IsNode (k i : Nat) (a : α) : Prop := ((level pair)^[k] l)[i]? = some a

/-- The node that is hashed with the one at position `i` of level `k`; the last
node of an odd level is its own sibling. -/
def IsSibling (k i : Nat) (s : α) : Prop :=
  if i % 2 = 1 then IsNode pair l k (i - 1) s
  else if i + 1 < ((level pair)^[k] l).length then IsNode pair l k (i + 1) s
  else IsNode pair l k i s

inductive Siblings (p : Nat) : Nat → List α → Prop
  | leaf : Siblings p 0 []
  | up {k : Nat} {path : List α} {s : α} (below : Siblings p k path)
      (sibling : IsSibling pair l k (p / 2 ^ k) s) : Siblings p (k + 1) (path ++ [s])

variable {pair l} {k i : Nat}

theorem IsNode.lt {a : α} (h : IsNode pair l k i a) : i < ((level pair)^[k] l).length :=
  (List.getElem?_eq_some_iff.mp h).1

theorem IsNode.parent {a b : α} (ha : IsNode pair l k (2 * i) a)
    (hb : IsNode pair l k (2 * i + 1) b) : IsNode pair l (k + 1) i (pair a b) := by
  rw [IsNode, Function.iterate_succ_apply', level, List.getElem?_map, getElem?_pairs, ha, hb]
  rfl

theorem IsNode.parent_of_last {a : α} (ha : IsNode pair l k (2 * i) a)
    (hlast : ((level pair)^[k] l).length = 2 * i + 1) :
    IsNode pair l (k + 1) i (pair a a) := by
  have hnone := List.getElem?_eq_none_iff.mpr hlast.le
  rw [IsNode, Function.iterate_succ_apply', level, List.getElem?_map, getElem?_pairs, ha, hnone]
  rfl

def stepUp (pair : α → α → α) (i : Nat) (a s : α) : α := if i % 2 = 1 then pair s a else pair a s

theorem IsNode.stepUp {a s : α} (ha : IsNode pair l k i a)
    (hs : IsSibling pair l k i s) : IsNode pair l (k + 1) (i / 2) (stepUp pair i a s) := by
  by_cases hodd : i % 2 = 1
  · rw [IsSibling, if_pos hodd] at hs
    rw [MerkleTree.stepUp, if_pos hodd]
    rw [show i - 1 = 2 * (i / 2) by omega] at hs
    rw [show i = 2 * (i / 2) + 1 by omega] at ha
    exact hs.parent ha
  · have heven : 2 * (i / 2) = i := by omega
    rw [IsSibling, if_neg hodd] at hs
    rw [MerkleTree.stepUp, if_neg hodd]
    by_cases hlt : i + 1 < ((level pair)^[k] l).length
    · rw [if_pos hlt] at hs
      rw [← heven] at ha hs
      exact ha.parent hs
    · rw [if_neg hlt] at hs
      have hsame : s = a := Option.some.inj (hs.symm.trans ha)
      have hbound := ha.lt
      rw [hsame]
      rw [← heven] at ha
      exact ha.parent_of_last (by omega)

def climb (pair : α → α → α) (a : α) : List α → Nat → α
  | [], _ => a
  | s :: path, i => climb pair (stepUp pair i a s) path (i / 2)

theorem climb_append (a s : α) (path : List α) (i : Nat) : climb pair a (path ++ [s]) i =
      stepUp pair (i / 2 ^ path.length) (climb pair a path i) s := by
  induction path generalizing a i with
  | nil => simp [climb]
  | cons t path ih =>
    rw [List.cons_append, climb, ih, climb, List.length_cons, Nat.pow_succ', Nat.div_div_eq_div_mul]

theorem Siblings.length_eq {p k : Nat} {path : List α} (h : Siblings pair l p k path) : path.length = k := by
  induction h with
  | leaf => rfl
  | up below sibling ih => simp [ih]

theorem Siblings.isNode_climb {p k : Nat} {path : List α} {a : α}
    (h : Siblings pair l p k path) (ha : l[p]? = some a) :
    IsNode pair l k (p / 2 ^ k) (climb pair a path p) := by
  induction h with
  | leaf => simpa [IsNode, climb] using ha
  | up below sibling ih =>
    rw [climb_append, below.length_eq, Nat.pow_succ, ← Nat.div_div_eq_div_mul]
    exact ih.stepUp sibling
end

end MerkleTree
