import Mathlib.Data.Nat.Bitwise
import Mathlib.Data.Nat.Size
import Mathlib.Data.List.GetD
import Mathlib.Algebra.Ring.Nat
import Mathlib.Tactic.Ring

/-! Numbers as lists of 32-bit limbs, the lowest one first: their value, its
bits, and the columns of a sum carried into limbs. -/

namespace Limbs

def value : List UInt32 → Nat
  | [] => 0
  | x :: xs => x.toNat + 2 ^ 32 * value xs

def bitAt (l : List UInt32) (n : Nat) : Bool := (l.getD (n / 32) 0).toNat.testBit (n % 32)

/-- The sum of columns, each at its place. -/
def columns : List UInt64 → Nat
  | [] => 0
  | s :: ss => s.toNat + 2 ^ 32 * columns ss

/-- The low half of each column stays and the rest is carried to the next one. -/
def carry : UInt64 → List UInt64 → List UInt32
  | _, [] => []
  | c, s :: ss => ((c + s) &&& 0xffffffff).toUInt32 :: carry ((c + s) >>> 32) ss

theorem value_lt (l : List UInt32) : value l < 2 ^ (32 * l.length) := by
  induction l with
  | nil => exact Nat.one_pos
  | cons x xs ih =>
    have hx := x.toNat_lt
    rw [value, List.length_cons, Nat.mul_succ, pow_add]
    omega

theorem value_append (l r : List UInt32) : value (l ++ r) = value l + 2 ^ (32 * l.length) * value r := by
  induction l with
  | nil => simp [value]
  | cons x xs ih =>
    rw [List.cons_append, value, value, ih, List.length_cons, Nat.mul_succ, Nat.add_comm (32 * xs.length),
      pow_add, Nat.mul_add, Nat.mul_assoc, Nat.add_assoc]

theorem value_take_drop (l : List UInt32) (j : Nat) (h : j ≤ l.length) :
    value (l.take j) + 2 ^ (32 * j) * value (l.drop j) = value l := by
  have hv := value_append (l.take j) (l.drop j)
  rw [List.take_append_drop, List.length_take, Nat.min_eq_left h] at hv
  exact hv.symm

theorem value_take_mod (l : List UInt32) (j : Nat) (h : j ≤ l.length) :
    value (l.take j) = value l % 2 ^ (32 * j) := by
  have hlt := value_lt (l.take j)
  rw [List.length_take, Nat.min_eq_left h] at hlt
  rw [← value_take_drop l j h, Nat.add_mul_mod_self_left, Nat.mod_eq_of_lt hlt]

theorem value_take_succ (l : List UInt32) {n : Nat} (h : n < l.length) :
    value (l.take (n + 1)) = value (l.take n) + 2 ^ (32 * n) * (l.getD n 0).toNat := by
  have hlen : (l.take n).length = n := by
    rw [List.length_take]
    omega
  rw [List.take_succ_eq_append_getElem h, value_append, hlen, List.getD_eq_getElem _ _ h]
  rfl

theorem value_replicate_zero (n : Nat) : value (List.replicate n 0) = 0 := by
  induction n with
  | zero => rfl
  | succ n ih => rw [List.replicate_succ, value, ih]; rfl

theorem testBit_value (l : List UInt32) (n : Nat) : (value l).testBit n = bitAt l n := by
  induction l generalizing n with
  | nil => simp [value, bitAt]
  | cons x xs ih =>
    rw [value, Nat.add_comm, Nat.testBit_two_pow_mul_add _ x.toNat_lt]
    by_cases hn : n < 32
    · rw [if_pos hn, bitAt, Nat.div_eq_of_lt hn, Nat.mod_eq_of_lt hn, List.getD_cons_zero]
    · have hdiv : n / 32 = (n - 32) / 32 + 1 := by omega
      have hmod : n % 32 = (n - 32) % 32 := by omega
      simp [hn, ih, bitAt, hdiv, hmod]

theorem bitAt_of_le {l : List UInt32} {n : Nat} (h : 32 * l.length ≤ n) : bitAt l n = false := by
  rw [bitAt, List.getD_eq_default _ _ (by omega)]
  simp

theorem bitAt_modify_or (l : List UInt32) (j : Nat) (x : UInt32) (n : Nat) : bitAt (l.modify j (· ||| x)) n =
      (bitAt l n || (decide (j < l.length) && decide (n / 32 = j) && x.toNat.testBit (n % 32))) := by
  have hget : (l.modify j (· ||| x)).getD (n / 32) 0 =
      if n / 32 = j ∧ j < l.length then l.getD (n / 32) 0 ||| x else l.getD (n / 32) 0 := by
    by_cases hj : n / 32 = j
    · subst hj
      by_cases hl : n / 32 < l.length
      · simp [hl]
      · simp [hl]
    · simp [hj, Ne.symm hj]
  rw [bitAt, hget, bitAt]
  by_cases hj : n / 32 = j ∧ j < l.length
  · simp [hj.1, hj.2]
  · rw [if_neg hj]
    have hnot : (decide (j < l.length) && decide (n / 32 = j)) = false := by
      simpa [and_comm] using hj
    simp [hnot]

theorem mod_add_mul_mod {b : Nat} (hb : 0 < b) (m s t : Nat) :
    s % b + b * ((s / b + t) % m) = (s + b * t) % (b * m) := by
  rw [Nat.mod_mul, Nat.add_mul_mod_self_left, Nat.add_mul_div_left _ _ hb]

theorem length_carry (c : UInt64) (ss : List UInt64) : (carry c ss).length = ss.length := by
  induction ss generalizing c with
  | nil => rfl
  | cons s ss ih => simp [carry, ih]

theorem value_carry {c : UInt64} {ss : List UInt64} (hc : c.toNat < 2 ^ 32)
    (hss : ∀ s ∈ ss, s.toNat ≤ 2 ^ 64 - 2 ^ 32) :
    value (carry c ss) = (c.toNat + columns ss) % 2 ^ (32 * ss.length) := by
  induction ss generalizing c with
  | nil => simp [carry, value, Nat.mod_one]
  | cons s ss ih =>
    have hs := hss s List.mem_cons_self
    have hsum : (c + s).toNat = c.toNat + s.toNat := by
      rw [UInt64.toNat_add, Nat.mod_eq_of_lt (by omega)]
    have hlow : ((c + s) &&& 0xffffffff).toUInt32.toNat = (c.toNat + s.toNat) % 2 ^ 32 := by
      rw [UInt64.toNat_toUInt32, UInt64.toNat_and, hsum, show (0xffffffff : UInt64).toNat = 2 ^ 32 - 1 from rfl,
        Nat.and_two_pow_sub_one_eq_mod, Nat.mod_mod]
    have hhigh : ((c + s) >>> 32).toNat = (c.toNat + s.toNat) / 2 ^ 32 := by
      rw [UInt64.toNat_shiftRight, hsum, Nat.shiftRight_eq_div_pow]
      rfl
    have hi := ih (c := (c + s) >>> 32) (by rw [hhigh]; omega) fun t ht => hss t (List.mem_cons_of_mem _ ht)
    rw [carry, value, hlow, hi, hhigh, List.length_cons, Nat.mul_succ, Nat.add_comm (32 * ss.length), pow_add,
      mod_add_mul_mod (Nat.two_pow_pos 32), columns, Nat.add_assoc]

theorem value_carry_zipWith {f : UInt32 → UInt32 → UInt64} (hf : ∀ x y, (f x y).toNat ≤ 2 ^ 64 - 2 ^ 32)
    (l r : List UInt32) : value (carry 0 (List.zipWith f l r)) =
      columns (List.zipWith f l r) % 2 ^ (32 * (List.zipWith f l r).length) := by
  have hle : ∀ s ∈ List.zipWith f l r, s.toNat ≤ 2 ^ 64 - 2 ^ 32 := by
    intro s hs
    rw [← List.map_uncurry_zip_eq_zipWith] at hs
    obtain ⟨xy, -, rfl⟩ := List.mem_map.mp hs
    exact hf xy.1 xy.2
  simpa using value_carry (c := 0) (by decide) hle

theorem columns_zipWith {f : UInt32 → UInt32 → UInt64} {m : Nat}
    (hf : ∀ x y, (f x y).toNat = x.toNat + m * y.toNat) {l r : List UInt32} (h : l.length ≤ r.length) :
    columns (List.zipWith f l r) = value l + m * value (r.take l.length) := by
  induction l generalizing r with
  | nil => rfl
  | cons x xs ih =>
    obtain _ | ⟨y, ys⟩ := r
    · simp at h
    · rw [List.zipWith_cons_cons, columns, ih (Nat.le_of_succ_le_succ h), hf, List.length_cons,
        List.take_succ_cons, value, value]
      ring

theorem lt_of_testBit_toNat {x : UInt32} {i : Nat} (h : x.toNat.testBit i = true) : i < 32 :=
  (Nat.pow_lt_pow_iff_right (by decide)).mp (Nat.lt_of_le_of_lt (Nat.ge_two_pow_of_testBit h) x.toNat_lt)

theorem toNat_ofNat_mod {s : Nat} (hs : s < 32) : (UInt32.ofNat s).toNat % 32 = s := by
  rw [UInt32.toNat_ofNat']
  omega

theorem testBit_shiftLeft (x : UInt32) {s i : Nat} (hs : s < 32) (hi : i < 32) :
    (x <<< UInt32.ofNat s).toNat.testBit i = (decide (s ≤ i) && x.toNat.testBit (i - s)) := by
  rw [UInt32.toNat_shiftLeft, toNat_ofNat_mod hs, Nat.testBit_mod_two_pow, Nat.testBit_shiftLeft, decide_eq_true hi,
    Bool.true_and]

theorem testBit_shiftRight (x : UInt32) {s : Nat} (hs : s < 32) (i : Nat) :
    (x >>> UInt32.ofNat s).toNat.testBit i = x.toNat.testBit (s + i) := by
  rw [UInt32.toNat_shiftRight, toNat_ofNat_mod hs, Nat.testBit_shiftRight]

end Limbs
