import Mathlib.Data.Nat.Bitwise
import Mathlib.Tactic

/-! Lists of numbers as one string of bits, where every number stands for the
same count of bits and the highest bit comes first. -/

namespace BitGroups

def bits : Nat → Nat → List Bool
  | 0, _ => []
  | k + 1, n => n.testBit k :: bits k n

def concat (k : Nat) (l : List Nat) : List Bool := l.flatMap (bits k)

@[simp] theorem bits_length (k n : Nat) : (bits k n).length = k := by
  induction k with
  | zero => rfl
  | succ k ih => simp [bits, ih]

theorem bits_eq_iff {k n m : Nat} : bits k n = bits k m ↔ ∀ i < k, n.testBit i = m.testBit i := by
  induction k with
  | zero => simp [bits]
  | succ k ih =>
    simp only [bits, List.cons.injEq, ih, Nat.lt_succ_iff_lt_or_eq]
    constructor
    · rintro ⟨hk, hlow⟩ i (hi | rfl)
      · exact hlow i hi
      · exact hk
    · intro h
      exact ⟨h k (Or.inr rfl), fun i hi => h i (Or.inl hi)⟩

theorem bits_injective {k n m : Nat} (hn : n < 2 ^ k) (hm : m < 2 ^ k) (h : bits k n = bits k m) : n = m := by
  apply Nat.eq_of_testBit_eq
  intro i
  by_cases hi : i < k
  · exact bits_eq_iff.mp h i hi
  · have hle : 2 ^ k ≤ 2 ^ i := Nat.pow_le_pow_right (by norm_num) (by omega)
    rw [Nat.testBit_lt_two_pow (lt_of_lt_of_le hn hle), Nat.testBit_lt_two_pow (lt_of_lt_of_le hm hle)]

theorem bits_add (j k n : Nat) : bits (j + k) n = bits j (n >>> k) ++ bits k n := by
  induction j with
  | zero => simp [bits]
  | succ j ih =>
    rw [Nat.add_right_comm]
    simp only [bits, List.cons_append, ih, Nat.testBit_shiftRight, Nat.add_comm k j]

theorem bits_zero (k : Nat) : bits k 0 = List.replicate k false := by
  induction k with
  | zero => rfl
  | succ k ih => simp [bits, ih, List.replicate_succ]

theorem bits_and_two_pow_sub_one {j k : Nat} (n : Nat) (h : j ≤ k) : bits j (n &&& (2 ^ k - 1)) = bits j n := by
  rw [bits_eq_iff]
  intro i hi
  simp [lt_of_lt_of_le hi h]

@[simp] theorem concat_nil (k : Nat) : concat k [] = [] := rfl
@[simp] theorem concat_cons (k d : Nat) (l : List Nat) : concat k (d :: l) = bits k d ++ concat k l := rfl

@[simp] theorem concat_append (k : Nat) (l l' : List Nat) : concat k (l ++ l') = concat k l ++ concat k l' :=
  List.flatMap_append

@[simp] theorem concat_length (k : Nat) (l : List Nat) : (concat k l).length = k * l.length := by
  induction l with
  | nil => rfl
  | cons d l ih =>
    rw [concat_cons, List.length_append, bits_length, ih, List.length_cons]
    ring

theorem concat_injective {k : Nat} (hk : 0 < k) {l l' : List Nat} (hl : ∀ d ∈ l, d < 2 ^ k)
    (hl' : ∀ d ∈ l', d < 2 ^ k) (h : concat k l = concat k l') : l = l' := by
  induction l generalizing l' with
  | nil =>
    cases l' with
    | nil => rfl
    | cons d' l' =>
      have hlen := congrArg List.length h
      simp only [concat_length, List.length_nil, List.length_cons] at hlen
      have hpos : 0 < k * (l'.length + 1) := Nat.mul_pos hk (Nat.succ_pos _)
      omega
  | cons d l ih =>
    cases l' with
    | nil =>
      have hlen := congrArg List.length h
      simp only [concat_length, List.length_nil, List.length_cons] at hlen
      have hpos : 0 < k * (l.length + 1) := Nat.mul_pos hk (Nat.succ_pos _)
      omega
    | cons d' l' =>
      obtain ⟨hhead, htail⟩ := List.append_inj h (by simp)
      have hd := bits_injective (hl d List.mem_cons_self) (hl' d' List.mem_cons_self) hhead
      rw [hd, ih (fun e he => hl e (List.mem_cons_of_mem d he))
        (fun e he => hl' e (List.mem_cons_of_mem d' he)) htail]

theorem bits_shiftLeft_xor {j k n d : Nat} (hd : d < 2 ^ k) : bits (j + k) ((n <<< k) ^^^ d) = bits j n ++ bits k d := by
  rw [bits_add]
  have hhigh : ((n <<< k) ^^^ d) >>> k = n := by
    apply Nat.eq_of_testBit_eq
    intro i
    have hbig : d < 2 ^ (k + i) := lt_of_lt_of_le hd (Nat.pow_le_pow_right (by norm_num) (Nat.le_add_right k i))
    simp [Nat.testBit_lt_two_pow hbig]
  have hlow : bits k ((n <<< k) ^^^ d) = bits k d := by
    rw [bits_eq_iff]
    intro i hi
    have hnot : ¬ k ≤ i := by omega
    simp [hnot]
  rw [hhigh, hlow]

theorem shiftLeft_or_eq_xor {k n d : Nat} (hd : d < 2 ^ k) : (n <<< k) ||| d = (n <<< k) ^^^ d := by
  apply Nat.eq_of_testBit_eq
  intro i
  by_cases hi : k ≤ i
  · have hbig : d < 2 ^ i := lt_of_lt_of_le hd (Nat.pow_le_pow_right (by norm_num) hi)
    simp [Nat.testBit_lt_two_pow hbig]
  · simp [hi]

def ofBits (l : List Bool) : Nat := l.foldl (fun n b => (n <<< 1) ||| (if b then 1 else 0)) 0

def groups (k : Nat) : Nat → List Bool → List Nat
  | 0, _ => []
  | n + 1, l => ofBits (l.take k) :: groups k n (l.drop k)

theorem ofBits_append (l : List Bool) (b : Bool) :
    ofBits (l ++ [b]) = (ofBits l <<< 1) ||| (if b then 1 else 0) := by
  rw [ofBits, List.foldl_append]
  rfl

theorem bits_ofBits (l : List Bool) : bits l.length (ofBits l) = l := by
  induction l using List.reverseRecOn with
  | nil => rfl
  | append_singleton l b ih =>
    have hb : (if b then 1 else 0) < 2 ^ 1 := by cases b <;> decide
    rw [ofBits_append, shiftLeft_or_eq_xor hb, List.length_append, List.length_singleton,
      bits_shiftLeft_xor hb, ih]
    cases b <;> rfl

theorem ofBits_lt (l : List Bool) : ofBits l < 2 ^ l.length := by
  induction l using List.reverseRecOn with
  | nil => exact Nat.one_pos
  | append_singleton l b ih =>
    rw [ofBits_append, List.length_append, List.length_singleton]
    apply Nat.or_lt_two_pow
    · omega
    · rw [Nat.pow_succ]
      cases b
      · simp
      · simp
        omega

theorem concat_groups {k n : Nat} {l : List Bool} (h : k * n ≤ l.length) :
    concat k (groups k n l) = l.take (k * n) := by
  induction n generalizing l with
  | zero => simp [groups]
  | succ n ih =>
    have hsplit : k * (n + 1) = k + k * n := by rw [Nat.mul_succ, Nat.add_comm]
    rw [hsplit] at h ⊢
    have hhead : bits k (ofBits (l.take k)) = l.take k := by
      have hbits := bits_ofBits (l.take k)
      rwa [List.length_take, Nat.min_eq_left (by omega)] at hbits
    rw [groups, concat_cons, hhead, ih (by rw [List.length_drop]; omega), ← List.take_add]

theorem groups_lt {k n : Nat} {l : List Bool} (h : k * n ≤ l.length) : ∀ d ∈ groups k n l, d < 2 ^ k := by
  induction n generalizing l with
  | zero => simp [groups]
  | succ n ih =>
    rw [Nat.mul_succ] at h
    intro d hd
    rcases List.mem_cons.mp hd with rfl | hd
    · have hlt := ofBits_lt (l.take k)
      rwa [List.length_take, Nat.min_eq_left (by omega)] at hlt
    · exact ih (by rw [List.length_drop]; omega) d hd

@[simp] theorem groups_length (k n : Nat) (l : List Bool) : (groups k n l).length = n := by
  induction n generalizing l with
  | zero => rfl
  | succ n ih => simp [groups, ih]

theorem groups_concat {k : Nat} (hk : 0 < k) {l : List Nat} (hl : ∀ d ∈ l, d < 2 ^ k) :
    groups k l.length (concat k l) = l := by
  refine concat_injective hk (groups_lt (by simp)) hl ?_
  rw [concat_groups (by simp), ← concat_length, List.take_length]

theorem groups_eq_map_range (k n : Nat) (l : List Bool) :
    groups k n l = (List.range n).map fun i => ofBits ((l.drop (k * i)).take k) := by
  induction n generalizing l with
  | zero => rfl
  | succ n ih =>
    rw [groups, ih, List.range_succ_eq_map, List.map_cons, List.map_map]
    simp only [Function.comp_def, List.drop_drop, Nat.mul_succ, Nat.mul_zero, List.drop_zero, Nat.add_comm]

end BitGroups
