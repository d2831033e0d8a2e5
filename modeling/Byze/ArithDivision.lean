import Byze.ArithUint256
import Mathlib.Data.List.Induction

/-! Comparison, bit length and division of the 256-bit numbers: the quotient
is found a bit at a time, from the highest bit the lengths allow down to zero. -/

namespace Byze
open Limbs

namespace ArithUint256

theorem compareLimbs_reverse_eq_lt {l r : List UInt32} (h : l.length = r.length) :
    compareLimbs l.reverse r.reverse = .lt ↔ Limbs.value l < Limbs.value r := by
  induction l using List.reverseRecOn generalizing r with
  | nil =>
    rw [List.length_eq_zero_iff.mp h.symm]
    simp [compareLimbs]
  | append_singleton l x ih =>
    obtain rfl | ⟨r, y, rfl⟩ := List.eq_nil_or_concat r
    · simp at h
    · have hlen : l.length = r.length := by simpa using h
      have hl := Limbs.value_lt l
      have hr := Limbs.value_lt r
      have htop : ∀ z : UInt32, Limbs.value [z] = z.toNat := by
        intro z
        simp [Limbs.value]
      rw [← hlen] at hr
      rw [List.concat_eq_append, List.reverse_append, List.reverse_append, List.reverse_singleton,
        List.reverse_singleton, List.singleton_append, List.singleton_append, compareLimbs, value_append, value_append, ← hlen, htop, htop]
      by_cases hxy : x < y
      · have hle : 2 ^ (32 * l.length) * (x.toNat + 1) ≤ 2 ^ (32 * l.length) * y.toNat :=
          Nat.mul_le_mul_left _ (UInt32.lt_iff_toNat_lt.mp hxy)
        rw [if_pos hxy]
        rw [Nat.mul_succ] at hle
        exact ⟨fun _ => by omega, fun _ => rfl⟩
      · by_cases hyx : y < x
        · have hle : 2 ^ (32 * l.length) * (y.toNat + 1) ≤ 2 ^ (32 * l.length) * x.toNat :=
            Nat.mul_le_mul_left _ (UInt32.lt_iff_toNat_lt.mp hyx)
          rw [if_neg hxy, if_pos hyx]
          rw [Nat.mul_succ] at hle
          constructor
          · intro hgt
            cases hgt
          · intro hlt
            omega
        · have heq : x.toNat = y.toNat :=
            Nat.le_antisymm (Nat.le_of_not_lt (mt UInt32.lt_iff_toNat_lt.mpr hyx))
              (Nat.le_of_not_lt (mt UInt32.lt_iff_toNat_lt.mpr hxy))
          rw [if_neg hxy, if_neg hyx, ih hlen, heq]
          exact (Nat.add_lt_add_iff_right).symm

theorem compareTo_eq_lt (a b : ArithUint256) : a.compareTo b = .lt ↔ a.value < b.value :=
  compareLimbs_reverse_eq_lt (a.length_pn.trans b.length_pn.symm)

theorem size_eq_succ {m n : Nat} (hle : 2 ^ n ≤ m) (hlt : m < 2 ^ (n + 1)) : m.size = n + 1 :=
  Nat.le_antisymm (Nat.size_le.mpr hlt) (Nat.lt_size.mpr hle)

variable {n : Nat}

theorem toNat_one_shiftLeft (hn : n < 32) : ((1 : UInt32) <<< UInt32.ofNat n).toNat = 2 ^ n := by
  have hlt : 2 ^ n < 2 ^ 32 := Nat.pow_lt_pow_right (by decide) hn
  rw [UInt32.toNat_shiftLeft, Limbs.toNat_ofNat_mod hn, show (1 : UInt32).toNat = 1 from rfl, Nat.one_shiftLeft, Nat.mod_eq_of_lt hlt]

theorem and_one_shiftLeft_ne_zero (x : UInt32) (hn : n < 32) :
    x &&& (1 <<< UInt32.ofNat n) ≠ 0 ↔ x.toNat.testBit n = true := by
  have hand : (x &&& (1 <<< UInt32.ofNat n)).toNat = 2 ^ n * (x.toNat.testBit n).toNat := by
    rw [UInt32.toNat_and, toNat_one_shiftLeft hn, Nat.and_two_pow, Nat.mul_comm]
  rw [ne_eq, ← UInt32.toNat_inj, hand]
  simp

theorem topBit_eq_size {x : UInt32} (hx : x ≠ 0) (hn : n < 32) (hlt : x.toNat < 2 ^ (n + 1)) :
    topBit x n = x.toNat.size := by
  have hpos : 1 ≤ x.toNat := by
    by_contra hzero
    apply hx
    apply UInt32.toNat_inj.mp
    have hz : (0 : UInt32).toNat = 0 := rfl
    omega
  induction n with
  | zero => exact (size_eq_succ (n := 0) hpos hlt).symm
  | succ n ih =>
    rw [topBit]
    by_cases hbit : x &&& (1 <<< UInt32.ofNat (n + 1)) ≠ 0
    · have hge := Nat.ge_two_pow_of_testBit ((and_one_shiftLeft_ne_zero x hn).mp hbit)
      rw [if_pos hbit, size_eq_succ hge hlt]
    · have hbelow : x.toNat < 2 ^ (n + 1) := by
        rw [and_one_shiftLeft_ne_zero x hn, Nat.testBit_eq_decide_div_mod_eq, decide_eq_true_eq] at hbit
        have hdiv : x.toNat / 2 ^ (n + 1) < 2 := by
          apply Nat.div_lt_of_lt_mul
          rwa [← pow_succ]
        apply (Nat.div_eq_zero_iff_lt (Nat.two_pow_pos _)).mp
        generalize x.toNat / 2 ^ (n + 1) = q at hbit hdiv
        omega
      rw [if_neg hbit]
      exact ih (by omega) hbelow

theorem bitsLimbs_reverse (l : List UInt32) : bitsLimbs l.reverse = (Limbs.value l).size := by
  induction l using List.reverseRecOn with
  | nil => rfl
  | append_singleton l x ih =>
    have htop : Limbs.value [x] = x.toNat := by
      simp [Limbs.value]
    have hl := Limbs.value_lt l
    rw [List.reverse_append, List.reverse_singleton, List.singleton_append, bitsLimbs, value_append, htop]
    by_cases hx : x ≠ 0
    · have hsize := topBit_eq_size hx (n := 31) (by decide) x.toNat_lt
      have hge : 2 ^ (topBit x 31 - 1) ≤ x.toNat := by
        apply Nat.lt_size.mp
        have hpos : 0 < x.toNat.size := by
          apply Nat.size_pos.mpr
          apply Nat.pos_of_ne_zero
          intro hzero
          exact hx (UInt32.toNat_inj.mp hzero)
        omega
      have hlt : x.toNat < 2 ^ topBit x 31 := by
        rw [hsize]
        exact Nat.lt_size_self _
      have hsucc : topBit x 31 = topBit x 31 - 1 + 1 := by
        by_contra hzero
        have h0 : topBit x 31 = 0 := by omega
        rw [h0] at hlt hge
        omega
      rw [if_pos hx, List.length_reverse, hsucc, ← Nat.add_assoc]
      symm
      apply size_eq_succ
      · rw [pow_add]
        exact (Nat.mul_le_mul_left _ hge).trans (Nat.le_add_left _ _)
      · rw [Nat.add_assoc, ← hsucc, pow_add]
        have hnext : 2 ^ (32 * l.length) * (x.toNat + 1) ≤ 2 ^ (32 * l.length) * 2 ^ topBit x 31 :=
          Nat.mul_le_mul_left _ hlt
        rw [Nat.mul_succ] at hnext
        omega
    · have hzero : x.toNat = 0 := by
        rw [not_not.mp hx]
        rfl
      simp [hx, ih, hzero]

theorem bits_eq_size (a : ArithUint256) : a.bits = a.value.size := bitsLimbs_reverse a.pn

theorem value_setBit (a : ArithUint256) (hn : n < 256) : (a.setBit n).value = a.value ||| 2 ^ n := by
  apply Nat.eq_of_testBit_eq
  intro p
  have hin : n / 32 < a.pn.length := by
    rw [a.length_pn]
    omega
  rw [Nat.testBit_or, Nat.testBit_two_pow, value, value, testBit_value, testBit_value, setBit, bitAt_modify_or,
    decide_eq_true hin, Bool.true_and, toNat_one_shiftLeft (Nat.mod_lt _ (by decide)), Nat.testBit_two_pow,
    ← Bool.decide_and]
  congr 2
  apply propext
  omega

theorem value_setBit_of_dvd {a : ArithUint256} (hn : n < 256) (h : 2 ^ (n + 1) ∣ a.value) :
    (a.setBit n).value = a.value + 2 ^ n := by
  obtain ⟨q, hq⟩ := h
  have hlt : 2 ^ n < 2 ^ (n + 1) := Nat.pow_lt_pow_right (by decide) (Nat.lt_succ_self n)
  rw [value_setBit a hn, hq, Nat.two_pow_add_eq_or_of_lt hlt]

theorem value_divideLoop {b n : Nat} {num div quotient : ArithUint256} (hn : n ≤ 256)
    (hdiv : ∀ m, n = m + 1 → div.value = b * 2 ^ m) (hnum : num.value < b * 2 ^ n)
    (hquotient : 2 ^ n ∣ quotient.value) :
    (divideLoop n num div quotient).value = quotient.value + num.value / b := by
  induction n generalizing num div quotient with
  | zero =>
    rw [divideLoop, Nat.div_eq_of_lt (by simpa using hnum), Nat.add_zero]
  | succ n ih =>
    have hd := hdiv n rfl
    have hpos : 0 < b := by
      apply Nat.pos_of_ne_zero
      intro hzero
      rw [hzero, Nat.zero_mul] at hnum
      exact Nat.not_lt_zero _ hnum
    have hnext : ∀ m, n = m + 1 → (div.shiftRight 1).value = b * 2 ^ m := by
      intro m hm
      rw [value_shiftRight, hd, hm, pow_succ, pow_one, ← Nat.mul_assoc, Nat.mul_div_cancel _ Nat.two_pos]
    have hhalf : 2 ^ n ∣ quotient.value := (pow_dvd_pow 2 (Nat.le_succ n)).trans hquotient
    rw [divideLoop]
    by_cases hlt : num.compareTo div ≠ .lt
    · have hle : div.value ≤ num.value := by
        apply Nat.le_of_not_lt
        intro hless
        exact hlt ((compareTo_eq_lt num div).mpr hless)
      have hset := value_setBit_of_dvd (by omega) hquotient
      have hsub := value_sub hle
      have hrest : (num.sub div).value < b * 2 ^ n := by
        rw [pow_succ, ← Nat.mul_assoc] at hnum
        omega
      have hdvd : 2 ^ n ∣ (quotient.setBit n).value := by
        rw [hset]
        exact Nat.dvd_add hhalf (Nat.dvd_refl _)
      have hquot : num.value / b = (num.value - div.value) / b + 2 ^ n := by
        rw [← Nat.add_mul_div_left _ _ hpos, ← hd, Nat.sub_add_cancel hle]
      rw [if_pos hlt, ih (by omega) hnext hrest hdvd, hsub]
      omega
    · have hless : num.value < div.value := (compareTo_eq_lt num div).mp (not_not.mp hlt)
      rw [if_neg hlt]
      exact ih (by omega) hnext (by omega) hhalf

theorem value_div {a b : ArithUint256} (hb : b.value ≠ 0) :
    ∃ q, a.divide b = .ok q ∧ q.value = a.value / b.value := by
  have hbits : b.bits ≠ 0 := by
    rw [bits_eq_size, ne_eq, Nat.size_eq_zero]
    exact hb
  rw [divide, if_neg hbits]
  by_cases hlt : a.bits < b.bits
  · have hsmall : a.value < b.value := by
      rw [bits_eq_size, bits_eq_size] at hlt
      exact Nat.lt_of_lt_of_le (Nat.lt_size_self a.value)
        ((Nat.pow_le_pow_right Nat.two_pos (Nat.le_refl _)).trans (Nat.lt_size.mp hlt))
    refine ⟨_, if_pos hlt, ?_⟩
    rw [value_ofUInt64, Nat.div_eq_of_lt hsmall]
    rfl
  · have hsizes : a.bits = b.bits + (a.bits - b.bits) := by omega
    have hmax : a.bits ≤ 256 := by
      rw [bits_eq_size, Nat.size_le]
      exact a.value_lt
    have htop : 2 ^ (b.bits - 1) ≤ b.value := by
      apply Nat.lt_size.mp
      rw [← bits_eq_size]
      omega
    have hblt : b.value < 2 ^ b.bits := by
      rw [bits_eq_size]
      exact Nat.lt_size_self _
    have halt : a.value < 2 ^ a.bits := by
      rw [bits_eq_size]
      exact Nat.lt_size_self _
    generalize hs : a.bits - b.bits = shift at hsizes
    have hfit : b.value * 2 ^ shift < 2 ^ 256 := by
      calc b.value * 2 ^ shift < 2 ^ b.bits * 2 ^ shift := Nat.mul_lt_mul_of_pos_right hblt (Nat.two_pow_pos _)
        _ = 2 ^ a.bits := by rw [← pow_add, ← hsizes]
        _ ≤ 2 ^ 256 := Nat.pow_le_pow_right Nat.two_pos hmax
    have hnum : a.value < b.value * 2 ^ (shift + 1) := by
      calc a.value < 2 ^ a.bits := halt
        _ = 2 ^ (b.bits - 1) * 2 ^ (shift + 1) := by
          rw [← pow_add]
          congr 1
          omega
        _ ≤ b.value * 2 ^ (shift + 1) := Nat.mul_le_mul_right _ htop
    have hdiv : ∀ m, shift + 1 = m + 1 → (b.shiftLeft shift).value = b.value * 2 ^ m := by
      intro m hm
      rw [value_shiftLeft, Nat.mod_eq_of_lt hfit, Nat.succ.inj hm]
    have hzero : (ofUInt64 0).value = 0 := value_ofUInt64 0
    refine ⟨_, if_neg hlt, ?_⟩
    simp [value_divideLoop (by omega) hdiv hnum (by rw [hzero]; exact Nat.dvd_zero _), hzero]

theorem toNat_getLow64 (a : ArithUint256) : a.getLow64.toNat = a.value % 2 ^ 64 := by
  obtain ⟨l, hl⟩ := a
  obtain _ | ⟨x, _ | ⟨y, l⟩⟩ := l
  · contradiction
  · simp at hl
  · have hx := x.toNat_lt
    have hy := y.toNat_lt
    have hshift : (y.toUInt64 <<< 32).toNat = 2 ^ 32 * y.toNat := by
      rw [UInt64.toNat_shiftLeft, Nat.shiftLeft_eq]
      show y.toNat * 2 ^ 32 % 2 ^ 64 = _
      omega
    show (x.toUInt64 ||| y.toUInt64 <<< 32).toNat = _
    rw [UInt64.toNat_or, hshift, UInt32.toNat_toUInt64, Nat.or_comm, ← Nat.two_pow_add_eq_or_of_lt hx, value,
      Limbs.value, Limbs.value]
    omega

theorem value_eq_zero_iff (l : List UInt32) : Limbs.value l = 0 ↔ l.all (· == 0) = true := by
  induction l with
  | nil => simp [Limbs.value]
  | cons x xs ih =>
    have hx : x.toNat = 0 ↔ x = 0 := UInt32.toNat_inj (b := 0)
    rw [Limbs.value, List.all_cons, Bool.and_eq_true, ← ih, beq_iff_eq, ← hx]
    omega

theorem equalTo_iff (a : ArithUint256) (b : UInt64) : a.equalTo b = true ↔ a.value = b.toNat := by
  obtain ⟨l, hl⟩ := a
  obtain _ | ⟨x, _ | ⟨y, l⟩⟩ := l
  · contradiction
  · simp at hl
  · have hx := x.toNat_lt
    have hb := b.toNat_lt
    have hlow : (b &&& 0xffffffff).toUInt32.toNat = b.toNat % 2 ^ 32 := by
      rw [UInt64.toNat_toUInt32, UInt64.toNat_and, show (0xffffffff : UInt64).toNat = 2 ^ 32 - 1 from rfl,
        Nat.and_two_pow_sub_one_eq_mod, Nat.mod_mod]
    show (l.all (· == 0) && y == (b >>> 32).toUInt32 && x == (b &&& 0xffffffff).toUInt32) = true ↔
      x.toNat + 2 ^ 32 * (y.toNat + 2 ^ 32 * Limbs.value l) = b.toNat
    rw [Bool.and_eq_true, Bool.and_eq_true, ← value_eq_zero_iff, beq_iff_eq, beq_iff_eq,
      ← UInt32.toNat_inj, ← UInt32.toNat_inj, toNat_highWord]
    omega

end ArithUint256

end Byze
