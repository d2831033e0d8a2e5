import Mathlib.LinearAlgebra.Vandermonde
import Byze.Lib.BitGroups

/-! Fields whose elements are words of bits with exclusive or as addition. A step on
words that is linear and reaches every word but zero from one is the product with an
element whose powers are all others. -/

namespace XorField

theorem xor_induction {P : Nat → Prop} (n : Nat) (hzero : P 0)
    (hbit : ∀ i < n, ∀ x < 2 ^ i, P x → P (2 ^ i ^^^ x)) : ∀ x < 2 ^ n, P x := by
  induction n with
  | zero =>
    intro x hx
    obtain rfl : x = 0 := by simpa using hx
    exact hzero
  | succ n ih =>
    have hlow := ih fun i hi => hbit i (Nat.lt_succ_of_lt hi)
    intro x hx
    by_cases hxn : x < 2 ^ n
    · exact hlow x hxn
    · have hrest : x - 2 ^ n < 2 ^ n := by
        omega
      have hsplit : 2 ^ n ^^^ (x - 2 ^ n) = x := by
        have hor := Nat.two_pow_add_eq_or_of_lt hrest 1
        have hxor := BitGroups.shiftLeft_or_eq_xor hrest (n := 1)
        rw [Nat.mul_one] at hor
        rw [Nat.one_shiftLeft] at hxor
        omega
      rw [← hsplit]
      exact hbit n (Nat.lt_succ_self n) _ hrest (hlow _ hrest)

theorem eq_of_bits {α : Type} (op : α → α → α) {f g : Nat → α} {n : Nat}
    (hf : ∀ x < 2 ^ n, ∀ y < 2 ^ n, f (x ^^^ y) = op (f x) (f y))
    (hg : ∀ x < 2 ^ n, ∀ y < 2 ^ n, g (x ^^^ y) = op (g x) (g y)) (hzero : f 0 = g 0)
    (hbits : ∀ i < n, f (2 ^ i) = g (2 ^ i)) : ∀ x < 2 ^ n, f x = g x := by
  refine xor_induction (P := fun x => f x = g x) n hzero ?_
  intro i hi x hx hfx
  have hi' : 2 ^ i < 2 ^ n := Nat.pow_lt_pow_right (by decide) hi
  have hx' : x < 2 ^ n := hx.trans hi'
  rw [hf _ hi' _ hx', hg _ hi' _ hx', hbits i hi, hfx]

/-- A linear step on the words of `n` bits that goes through all of them but zero. -/
structure Generator (n : Nat) where
  step : Nat → Nat
  step_lt : ∀ x < 2 ^ n, step x < 2 ^ n
  step_xor : ∀ x < 2 ^ n, ∀ y < 2 ^ n, step (x ^^^ y) = step x ^^^ step y
  one_lt : 1 < 2 ^ n
  period : step^[2 ^ n - 1] 1 = 1
  reaches : ∀ x < 2 ^ n, x ≠ 0 → ∃ k < 2 ^ n - 1, step^[k] 1 = x

namespace Generator
variable {n : Nat} (G : Generator n)

def pow (k : Nat) : Nat := G.step^[k] 1

theorem step_zero : G.step 0 = 0 := by
  have h := G.step_xor 0 (Nat.two_pow_pos n) 0 (Nat.two_pow_pos n)
  rwa [Nat.xor_self, Nat.xor_self] at h

theorem iterate_zero (k : Nat) : G.step^[k] 0 = 0 := Function.iterate_fixed G.step_zero k

theorem iterate_lt {x : Nat} (hx : x < 2 ^ n) (k : Nat) : G.step^[k] x < 2 ^ n := by
  induction k generalizing x with
  | zero => exact hx
  | succ k ih => exact ih (G.step_lt x hx)

theorem iterate_xor {x y : Nat} (hx : x < 2 ^ n) (hy : y < 2 ^ n) (k : Nat) :
    G.step^[k] (x ^^^ y) = G.step^[k] x ^^^ G.step^[k] y := by
  induction k generalizing x y with
  | zero => rfl
  | succ k ih =>
    rw [Function.iterate_succ_apply, G.step_xor x hx y hy]
    exact ih (G.step_lt x hx) (G.step_lt y hy)

theorem pow_lt (k : Nat) : G.pow k < 2 ^ n := G.iterate_lt G.one_lt k

theorem iterate_pow (k i : Nat) : G.step^[k] (G.pow i) = G.pow (k + i) :=
  (Function.iterate_add_apply G.step k i 1).symm

theorem iterate_period {x : Nat} (hx : x < 2 ^ n) : G.step^[2 ^ n - 1] x = x := by
  by_cases hzero : x = 0
  · rw [hzero, G.iterate_zero]
  · obtain ⟨k, -, rfl⟩ := G.reaches x hx hzero
    rw [← Function.iterate_add_apply, Nat.add_comm, Function.iterate_add_apply, G.period]

theorem iterate_mod {x : Nat} (hx : x < 2 ^ n) (k : Nat) : G.step^[k % (2 ^ n - 1)] x = G.step^[k] x := by
  have hperiodic : Function.IsPeriodicPt G.step (2 ^ n - 1) x := G.iterate_period hx
  exact hperiodic.iterate_mod_apply k

theorem pow_mod (k : Nat) : G.pow (k % (2 ^ n - 1)) = G.pow k := G.iterate_mod G.one_lt k

theorem order_pos (G : Generator n) : 0 < 2 ^ n - 1 := Nat.sub_pos_of_lt G.one_lt

theorem pow_ne_zero (k : Nat) : G.pow k ≠ 0 := by
  intro hzero
  have hlt := Nat.mod_lt k G.order_pos
  rw [← G.pow_mod] at hzero
  have hperiod := G.period
  rw [← Nat.sub_add_cancel hlt.le, Function.iterate_add_apply] at hperiod
  rw [pow] at hzero
  rw [hzero, G.iterate_zero] at hperiod
  exact Nat.zero_ne_one hperiod

theorem pow_injOn {i j : Nat} (hi : i < 2 ^ n - 1) (hj : j < 2 ^ n - 1) (h : G.pow i = G.pow j) : i = j := by
  have honto : Set.SurjOn G.pow (Finset.range (2 ^ n - 1)) ((Finset.range (2 ^ n)).erase 0) := by
    intro x hx
    simp only [Finset.coe_erase, Finset.coe_range, Set.mem_sdiff, Set.mem_Iio] at hx
    obtain ⟨k, hk, hpow⟩ := G.reaches x hx.1 hx.2
    exact ⟨k, by simpa using hk, hpow⟩
  refine Finset.injOn_of_surjOn_of_card_le _ (fun k _ => ?_) honto (by simp) (by simpa using hi) (by simpa using hj) h
  simp [G.pow_ne_zero, G.pow_lt]

theorem pow_eq_iff (i j : Nat) : G.pow i = G.pow j ↔ i % (2 ^ n - 1) = j % (2 ^ n - 1) := by
  constructor
  · intro h
    rw [← G.pow_mod i, ← G.pow_mod j] at h
    exact G.pow_injOn (Nat.mod_lt _ G.order_pos) (Nat.mod_lt _ G.order_pos) h
  · intro h
    rw [← G.pow_mod i, ← G.pow_mod j, h]

end Generator

@[ext]
structure Elem {n : Nat} (G : Generator n) where
  val : Nat
  val_lt : val < 2 ^ n

namespace Elem
variable {n : Nat} {G : Generator n}

def ofPow (G : Generator n) (k : Nat) : Elem G := ⟨G.pow k, G.pow_lt k⟩

instance : Zero (Elem G) := ⟨⟨0, Nat.two_pow_pos n⟩⟩

instance : One (Elem G) := ⟨⟨1, G.one_lt⟩⟩

instance : Neg (Elem G) := ⟨fun x => x⟩

instance : Add (Elem G) := ⟨fun x y => ⟨x.val ^^^ y.val, Nat.xor_lt_two_pow x.val_lt y.val_lt⟩⟩

theorem exists_pow {x : Elem G} (hx : x ≠ 0) : ∃ k, x = ofPow G k := by
  have hval : x.val ≠ 0 := fun h => hx (Elem.ext h)
  obtain ⟨k, -, hk⟩ := G.reaches x.val x.val_lt hval
  exact ⟨k, Elem.ext hk.symm⟩

open Classical in
noncomputable def log (x : Elem G) : Nat := if h : x ≠ 0 then (exists_pow h).choose else 0

theorem ofPow_log {x : Elem G} (hx : x ≠ 0) : ofPow G x.log = x := by
  rw [log, dif_pos hx]
  exact (exists_pow hx).choose_spec.symm

theorem ofPow_ne_zero (k : Nat) : ofPow G k ≠ 0 := fun h => G.pow_ne_zero k (congrArg val h)

open Classical in
noncomputable instance : Mul (Elem G) :=
  ⟨fun x y => if y = 0 then 0 else ⟨G.step^[y.log] x.val, G.iterate_lt x.val_lt _⟩⟩

@[simp] theorem val_add (x y : Elem G) : (x + y).val = x.val ^^^ y.val := rfl

theorem mul_zero' (x : Elem G) : x * 0 = 0 := if_pos rfl

theorem val_mul_ofPow (x : Elem G) (k : Nat) : (x * ofPow G k).val = G.step^[k] x.val := by
  have hmul : x * ofPow G k = ⟨G.step^[(ofPow G k).log] x.val, G.iterate_lt x.val_lt _⟩ := if_neg (ofPow_ne_zero k)
  have hlog : G.pow (ofPow G k).log = G.pow k := congrArg val (ofPow_log (ofPow_ne_zero k))
  rw [hmul]
  show G.step^[_] x.val = _
  simp [← G.iterate_mod x.val_lt, (G.pow_eq_iff _ _).mp hlog]

theorem ofPow_mul_ofPow (i j : Nat) : ofPow G i * ofPow G j = ofPow G (i + j) := by
  apply Elem.ext
  rw [val_mul_ofPow, Nat.add_comm]
  exact G.iterate_pow j i

theorem zero_mul' (x : Elem G) : 0 * x = 0 := by
  by_cases hx : x = 0
  · rw [hx, mul_zero']
  · obtain ⟨k, rfl⟩ := exists_pow hx
    apply Elem.ext
    rw [val_mul_ofPow]
    exact G.iterate_zero k

theorem mul_comm' (x y : Elem G) : x * y = y * x := by
  by_cases hx : x = 0
  · rw [hx, mul_zero', zero_mul']
  by_cases hy : y = 0
  · rw [hy, mul_zero', zero_mul']
  obtain ⟨i, rfl⟩ := exists_pow hx
  obtain ⟨j, rfl⟩ := exists_pow hy
  rw [ofPow_mul_ofPow, ofPow_mul_ofPow, Nat.add_comm]

theorem mul_assoc' (x y z : Elem G) : x * y * z = x * (y * z) := by
  by_cases hy : y = 0
  · rw [hy, mul_zero', zero_mul', mul_zero']
  by_cases hz : z = 0
  · rw [hz, mul_zero', mul_zero', mul_zero']
  obtain ⟨i, rfl⟩ := exists_pow hy
  obtain ⟨j, rfl⟩ := exists_pow hz
  apply Elem.ext
  rw [val_mul_ofPow, val_mul_ofPow, ofPow_mul_ofPow, val_mul_ofPow, ← Function.iterate_add_apply, Nat.add_comm]

theorem add_mul' (x y z : Elem G) : (x + y) * z = x * z + y * z := by
  by_cases hz : z = 0
  · rw [hz, mul_zero', mul_zero', mul_zero']
    exact Elem.ext (Nat.xor_self 0).symm
  obtain ⟨k, rfl⟩ := exists_pow hz
  apply Elem.ext
  rw [val_add, val_mul_ofPow, val_mul_ofPow, val_mul_ofPow]
  exact G.iterate_xor x.val_lt y.val_lt k

theorem mul_one' (x : Elem G) : x * 1 = x := Elem.ext (val_mul_ofPow x 0)

open Classical in
noncomputable instance : Inv (Elem G) := ⟨fun x => if x = 0 then 0 else ofPow G (2 ^ n - 1 - x.log % (2 ^ n - 1))⟩

theorem mul_inv_cancel' (x : Elem G) (hx : x ≠ 0) : x * x⁻¹ = 1 := by
  have hinv : x⁻¹ = ofPow G (2 ^ n - 1 - x.log % (2 ^ n - 1)) := if_neg hx
  have hlt := Nat.mod_lt x.log G.order_pos
  have hsum : x.log % (2 ^ n - 1) + (2 ^ n - 1 - x.log % (2 ^ n - 1)) = 2 ^ n - 1 := by omega
  have hlog : ofPow G (x.log % (2 ^ n - 1)) = x :=
    Elem.ext ((G.pow_mod _).trans (congrArg val (ofPow_log hx)))
  rw [hinv]
  generalize x.log % (2 ^ n - 1) = k at hlog hsum
  rw [← hlog, ofPow_mul_ofPow, hsum]
  exact Elem.ext G.period

noncomputable instance : Field (Elem G) where
  add_assoc x y z := Elem.ext (Nat.xor_assoc _ _ _)
  zero_add x := Elem.ext (Nat.zero_xor _)
  add_zero x := Elem.ext (Nat.xor_zero _)
  nsmul := nsmulRec
  zsmul := zsmulRec
  neg_add_cancel x := Elem.ext (Nat.xor_self _)
  add_comm x y := Elem.ext (Nat.xor_comm _ _)
  left_distrib x y z := by rw [mul_comm', add_mul', mul_comm' x, mul_comm' x]
  right_distrib := add_mul'
  zero_mul := zero_mul'
  mul_zero := mul_zero'
  mul_assoc := mul_assoc'
  one_mul x := by rw [mul_comm', mul_one']
  mul_one := mul_one'
  mul_comm := mul_comm'
  exists_pair_ne := ⟨0, 1, fun h => Nat.zero_ne_one (congrArg val h)⟩
  mul_inv_cancel := mul_inv_cancel'
  inv_zero := if_pos rfl
  nnqsmul := _
  nnqsmul_def := fun _ _ => rfl
  qsmul := _
  qsmul_def := fun _ _ => rfl

def gen (G : Generator n) : Elem G := ofPow G 1

theorem ofPow_eq_gen_pow (k : Nat) : ofPow G k = gen G ^ k := by
  induction k with
  | zero => rfl
  | succ k ih => rw [pow_succ, ← ih, gen, ofPow_mul_ofPow]

theorem val_gen_pow (k : Nat) : (gen G ^ k).val = G.pow k := by rw [← ofPow_eq_gen_pow, ofPow]

theorem val_mul_gen_pow (x : Elem G) (k : Nat) : (x * gen G ^ k).val = G.step^[k] x.val := by
  rw [← ofPow_eq_gen_pow, val_mul_ofPow]

theorem gen_ne_zero : gen G ≠ 0 := ofPow_ne_zero 1

theorem gen_pow_eq_iff (i j : Nat) : gen G ^ i = gen G ^ j ↔ i % (2 ^ n - 1) = j % (2 ^ n - 1) := by
  simp [Elem.ext_iff, val_gen_pow, G.pow_eq_iff]

theorem gen_pow_order : gen G ^ (2 ^ n - 1) = 1 := by
  rw [← pow_zero (gen G), gen_pow_eq_iff, Nat.mod_self, Nat.zero_mod]

theorem add_self (x : Elem G) : x + x = 0 := Elem.ext (Nat.xor_self _)

theorem add_eq_zero_iff {x y : Elem G} : x + y = 0 ↔ x = y := by
  constructor
  · intro h
    have hx : x + y + y = y := by simp [h]
    rwa [add_assoc, add_self, add_zero] at hx
  · intro h
    rw [h, add_self]

end Elem

/-- As many power sums as there are terms vanish only if all terms do. -/
theorem eq_zero_of_power_sums {K ι : Type} [Field K] {S : Finset ι} {c x : ι → K}
    (hinj : ∀ i ∈ S, ∀ j ∈ S, x i = x j → i = j) (hsum : ∀ k < S.card, ∑ i ∈ S, c i * x i ^ k = 0) :
    ∀ i ∈ S, c i = 0 := by
  intro p hp
  have hplaces : Function.Injective fun j => x (S.equivFin.symm j) := by
    intro i j hij
    exact S.equivFin.symm.injective (Subtype.ext (hinj _ (Subtype.property _) _ (Subtype.property _) hij))
  have hzero := Matrix.eq_zero_of_forall_pow_sum_mul_pow_eq_zero (v := fun j => c (S.equivFin.symm j)) hplaces
    fun k => by
      rw [← hsum k k.isLt, ← Finset.sum_coe_sort S]
      exact S.equivFin.symm.sum_comp fun i : S => c i * x i ^ (k : Nat)
  simpa using congrFun hzero (S.equivFin ⟨p, hp⟩)

section
variable {K : Type} [Field K] {s0 s1 s2 a1 a2 x1 x2 : K}

structure TwoTerms (s0 s1 s2 a1 a2 x1 x2 : K) : Prop where
  zeroth : s0 = a1 + a2
  first : s1 = a1 * x1 + a2 * x2
  second : s2 = a1 * x1 ^ 2 + a2 * x2 ^ 2

/-- In characteristic two, the terms and the second place follow from the first place. -/
theorem twoTerms_iff (htwo : (2 : K) = 0) (hne : x1 + x2 ≠ 0) : TwoTerms s0 s1 s2 a1 a2 x1 x2 ↔
      a2 * (x1 + x2) = s1 + s0 * x1 ∧ a1 * (x1 + x2) = s1 + s0 * x2 ∧ x2 * (s1 + s0 * x1) = s2 + s1 * x1 := by
  constructor
  · rintro ⟨h0, h1, h2⟩
    rw [h0, h1, h2]
    refine ⟨?_, ?_, ?_⟩
    · linear_combination -(a1 * x1) * htwo
    · linear_combination -(a2 * x2) * htwo
    · linear_combination (a1 * x1 * x2 - a1 * x1 ^ 2) * htwo
  · rintro ⟨hb, hc, hratio⟩
    refine ⟨?_, ?_, ?_⟩
    · apply mul_right_cancel₀ hne
      linear_combination -hb - hc - s1 * htwo
    · apply mul_right_cancel₀ hne
      linear_combination -x2 * hb - x1 * hc - s0 * x1 * x2 * htwo
    · apply mul_right_cancel₀ hne
      linear_combination -x2 ^ 2 * hb - x1 ^ 2 * hc - (x1 + x2) * hratio - s1 * x1 ^ 2 * htwo

theorem TwoTerms.swap (h : TwoTerms s0 s1 s2 a1 a2 x1 x2) : TwoTerms s0 s1 s2 a2 a1 x2 x1 :=
  ⟨h.zeroth.trans (add_comm _ _), h.first.trans (add_comm _ _), h.second.trans (add_comm _ _)⟩

theorem TwoTerms.ratio_ne (h : TwoTerms s0 s1 s2 a1 a2 x1 x2) (ha1 : a1 ≠ 0) (ha2 : a2 ≠ 0) (hne : x1 ≠ x2) :
    s1 ^ 2 ≠ s0 * s2 := by
  obtain ⟨h0, h1, h2⟩ := h
  intro heq
  have hprod : a1 * a2 * (x1 - x2) ^ 2 = 0 := by
    rw [h0, h1, h2] at heq
    linear_combination -heq
  exact mul_ne_zero (mul_ne_zero ha1 ha2) (pow_ne_zero 2 (sub_ne_zero.mpr hne)) hprod
end

end XorField
