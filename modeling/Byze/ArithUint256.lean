import Byze.Lib.Limbs

/-! The 256-bit numbers of the node, as eight limbs, and the loops over the limbs
that add, shift, compare, multiply and divide them. -/

namespace Byze
open Limbs

/-- `base_uint<256>`, with its lowest limb first. -/
structure ArithUint256 where
  pn : List UInt32
  length_pn : pn.length = 8
  deriving DecidableEq

namespace ArithUint256

def value (a : ArithUint256) : Nat := Limbs.value a.pn

theorem length_ofUInt64 (b : UInt64) :
    (b.toUInt32 :: (b >>> 32).toUInt32 :: List.replicate 6 0).length = 8 := rfl

def ofUInt64 (b : UInt64) : ArithUint256 := ⟨_, length_ofUInt64 b⟩

theorem length_complement (a : ArithUint256) : (a.pn.map fun x => ~~~x).length = 8 := by
  simp [a.length_pn]

def complement (a : ArithUint256) : ArithUint256 := ⟨_, a.length_complement⟩

def incrementLimbs : List UInt32 → List UInt32
  | [] => []
  | x :: xs => if x + 1 = 0 then 0 :: incrementLimbs xs else (x + 1) :: xs

theorem length_incrementLimbs (l : List UInt32) : (incrementLimbs l).length = l.length := by
  induction l with
  | nil => rfl
  | cons x xs ih =>
    rw [incrementLimbs]
    by_cases hx : x + 1 = 0
    · simp [hx, ih]
    · simp [hx]

theorem length_increment (a : ArithUint256) : (incrementLimbs a.pn).length = 8 := by
  rw [length_incrementLimbs, a.length_pn]

def increment (a : ArithUint256) : ArithUint256 := ⟨_, a.length_increment⟩

def neg (a : ArithUint256) : ArithUint256 := a.complement.increment

def addColumns (x y : UInt32) : UInt64 := x.toUInt64 + y.toUInt64

theorem length_add (a b : ArithUint256) : (carry 0 (List.zipWith addColumns a.pn b.pn)).length = 8 := by
  rw [length_carry, List.length_zipWith, a.length_pn, b.length_pn]
  rfl

def add (a b : ArithUint256) : ArithUint256 := ⟨_, a.length_add b⟩

def sub (a b : ArithUint256) : ArithUint256 := a.add b.neg

theorem length_mulUInt32 (a : ArithUint256) (b32 : UInt32) :
    (carry 0 (a.pn.map fun x => b32.toUInt64 * x.toUInt64)).length = 8 := by
  simp [length_carry, a.length_pn]

def mulUInt32 (a : ArithUint256) (b32 : UInt32) : ArithUint256 := ⟨_, a.length_mulUInt32 b32⟩

def mulColumns (factor x y : UInt32) : UInt64 := x.toUInt64 + factor.toUInt64 * y.toUInt64

/-- The inner loop of the product: a multiple of `b` is added from limb `j` on. -/
def mulRow (b a : List UInt32) (j : Nat) (factor : UInt32) : List UInt32 :=
  a.take j ++ carry 0 (List.zipWith (mulColumns factor) (a.drop j) b)

theorem length_mulRow {b a : List UInt32} (j : Nat) (factor : UInt32) (h : a.length ≤ b.length) :
    (mulRow b a j factor).length = a.length := by
  rw [mulRow, List.length_append, length_carry, List.length_zipWith, List.length_take, List.length_drop]
  omega

def mulRows (a b : List UInt32) : Nat → List UInt32
  | 0 => List.replicate 8 0
  | n + 1 => mulRow b (mulRows a b n) n (a.getD n 0)

theorem length_mulRows {a b : List UInt32} (hb : b.length = 8) (n : Nat) : (mulRows a b n).length = 8 := by
  induction n with
  | zero => exact List.length_replicate
  | succ n ih => rw [mulRows, length_mulRow _ _ (by omega), ih]

def mul (a b : ArithUint256) : ArithUint256 := ⟨mulRows a.pn b.pn 8, length_mulRows b.length_pn 8⟩

theorem length_ite_modify (c : Prop) [Decidable c] (l : List UInt32) (i : Nat) (f : UInt32 → UInt32) :
    (if c then l.modify i f else l).length = l.length := by
  split
  · exact List.length_modify _ _ _
  · rfl

/-- One round of `<<=`, for limb `i` of the old number. -/
def shiftLeftStep (a : List UInt32) (k shift : Nat) (pn : List UInt32) (i : Nat) : List UInt32 :=
  let pn := if i + k + 1 < 8 ∧ shift ≠ 0 then
      pn.modify (i + k + 1) (· ||| (a.getD i 0 >>> UInt32.ofNat (32 - shift)))
    else pn
  if i + k < 8 then pn.modify (i + k) (· ||| (a.getD i 0 <<< UInt32.ofNat shift)) else pn

theorem length_shiftLeftStep (a : List UInt32) (k shift : Nat) (pn : List UInt32) (i : Nat) :
    (shiftLeftStep a k shift pn i).length = pn.length := by
  unfold shiftLeftStep
  simp [length_ite_modify]

/-- What a loop over the old limbs makes of a number that starts as zero. -/
theorem length_foldl_steps {step : List UInt32 → Nat → List UInt32}
    (hstep : ∀ pn i, (step pn i).length = pn.length) (n : Nat) :
    ((List.range n).foldl step (List.replicate 8 0)).length = 8 := by
  induction n with
  | zero => exact List.length_replicate
  | succ n ih =>
    rw [List.range_succ, List.foldl_append]
    exact (hstep _ _).trans ih

def shiftLeftLimbs (a : List UInt32) (shift n : Nat) : List UInt32 :=
  (List.range n).foldl (shiftLeftStep a (shift / 32) (shift % 32)) (List.replicate 8 0)

def shiftLeft (a : ArithUint256) (shift : Nat) : ArithUint256 :=
  ⟨shiftLeftLimbs a.pn shift 8, length_foldl_steps (length_shiftLeftStep _ _ _) 8⟩

def shiftRightStep (a : List UInt32) (k shift : Nat) (pn : List UInt32) (i : Nat) : List UInt32 :=
  let pn := if k + 1 ≤ i ∧ shift ≠ 0 then
      pn.modify (i - k - 1) (· ||| (a.getD i 0 <<< UInt32.ofNat (32 - shift)))
    else pn
  if k ≤ i then pn.modify (i - k) (· ||| (a.getD i 0 >>> UInt32.ofNat shift)) else pn

theorem length_shiftRightStep (a : List UInt32) (k shift : Nat) (pn : List UInt32) (i : Nat) :
    (shiftRightStep a k shift pn i).length = pn.length := by
  unfold shiftRightStep
  simp [length_ite_modify]

def shiftRightLimbs (a : List UInt32) (shift n : Nat) : List UInt32 :=
  (List.range n).foldl (shiftRightStep a (shift / 32) (shift % 32)) (List.replicate 8 0)

def shiftRight (a : ArithUint256) (shift : Nat) : ArithUint256 :=
  ⟨shiftRightLimbs a.pn shift 8, length_foldl_steps (length_shiftRightStep _ _ _) 8⟩

def compareLimbs : List UInt32 → List UInt32 → Ordering
  | x :: xs, y :: ys => if x < y then .lt else if y < x then .gt else compareLimbs xs ys
  | _, _ => .eq

def compareTo (a b : ArithUint256) : Ordering := compareLimbs a.pn.reverse b.pn.reverse

def equalTo (a : ArithUint256) (b : UInt64) : Bool :=
  (a.pn.drop 2).all (· == 0) && a.pn.getD 1 0 == (b >>> 32).toUInt32 &&
    a.pn.getD 0 0 == (b &&& 0xffffffff).toUInt32

/-- The highest bit of a limb that is not zero, from bit `n` down. -/
def topBit (x : UInt32) : Nat → Nat
  | 0 => 1
  | n + 1 => if x &&& (1 <<< UInt32.ofNat (n + 1)) ≠ 0 then n + 2 else topBit x n

def bitsLimbs : List UInt32 → Nat
  | [] => 0
  | x :: xs => if x ≠ 0 then 32 * xs.length + topBit x 31 else bitsLimbs xs

def bits (a : ArithUint256) : Nat := bitsLimbs a.pn.reverse

def getLow64 (a : ArithUint256) : UInt64 := (a.pn.getD 0 0).toUInt64 ||| ((a.pn.getD 1 0).toUInt64 <<< 32)

theorem length_setBit (a : ArithUint256) (n : Nat) :
    (a.pn.modify (n / 32) (· ||| (1 <<< UInt32.ofNat (n % 32)))).length = 8 := by
  simp [a.length_pn]

def setBit (a : ArithUint256) (n : Nat) : ArithUint256 := ⟨_, a.length_setBit n⟩

/-- The rounds of the division from bit `n - 1` of the quotient down. -/
def divideLoop : Nat → ArithUint256 → ArithUint256 → ArithUint256 → ArithUint256
  | 0, _, _, quotient => quotient
  | shift + 1, num, div, quotient =>
    if num.compareTo div ≠ .lt then divideLoop shift (num.sub div) (div.shiftRight 1) (quotient.setBit shift)
    else divideLoop shift num (div.shiftRight 1) quotient

def divide (a b : ArithUint256) : Except String ArithUint256 :=
  if b.bits = 0 then .error "Division by zero"
  else if a.bits < b.bits then .ok (ofUInt64 0)
  else .ok (divideLoop (a.bits - b.bits + 1) a (b.shiftLeft (a.bits - b.bits)) (ofUInt64 0))

theorem value_lt (a : ArithUint256) : a.value < 2 ^ 256 := by
  have h := Limbs.value_lt a.pn
  rwa [a.length_pn] at h

theorem toNat_highWord (b : UInt64) : (b >>> 32).toUInt32.toNat = b.toNat / 2 ^ 32 % 2 ^ 32 := by
  rw [UInt64.toNat_toUInt32, UInt64.toNat_shiftRight, Nat.shiftRight_eq_div_pow]
  rfl

theorem value_ofUInt64 (b : UInt64) : (ofUInt64 b).value = b.toNat := by
  have hlow := UInt64.toNat_toUInt32 b
  have hb := b.toNat_lt
  show b.toUInt32.toNat + 2 ^ 32 * ((b >>> 32).toUInt32.toNat + 2 ^ 32 * Limbs.value (List.replicate 6 0)) = _
  rw [value_replicate_zero, toNat_highWord]
  omega

theorem value_complement_limbs (l : List UInt32) :
    Limbs.value (l.map fun x => ~~~x) + Limbs.value l = 2 ^ (32 * l.length) - 1 := by
  induction l with
  | nil => rfl
  | cons x xs ih =>
    have hx : (~~~x).toNat + x.toNat = 2 ^ 32 - 1 := by
      have hlt := x.toNat_lt
      rw [UInt32.toNat_not, show UInt32.size = 2 ^ 32 from rfl]
      omega
    rw [List.map_cons, Limbs.value, Limbs.value, List.length_cons, Nat.mul_succ, pow_add]
    have hpos := Nat.two_pow_pos (32 * xs.length)
    omega

theorem value_complement (a : ArithUint256) : a.complement.value = 2 ^ 256 - 1 - a.value := by
  have h := value_complement_limbs a.pn
  rw [a.length_pn] at h
  exact Nat.eq_sub_of_add_eq h

theorem value_incrementLimbs (l : List UInt32) :
    Limbs.value (incrementLimbs l) = (Limbs.value l + 1) % 2 ^ (32 * l.length) := by
  induction l with
  | nil => rfl
  | cons x xs ih =>
    have hx := x.toNat_lt
    have hone : (x + 1).toNat = (x.toNat + 1) % 2 ^ 32 := UInt32.toNat_add x 1
    have hlt := Limbs.value_lt xs
    rw [incrementLimbs, List.length_cons, Nat.mul_succ, Nat.add_comm (32 * xs.length), pow_add]
    by_cases hz : x + 1 = 0
    · have htop : x.toNat = 2 ^ 32 - 1 := by
        rw [hz] at hone
        have hzero : (0 : UInt32).toNat = 0 := rfl
        omega
      rw [if_pos hz, Limbs.value, Limbs.value, ih, htop,
        show 2 ^ 32 - 1 + 2 ^ 32 * Limbs.value xs + 1 = 2 ^ 32 * (Limbs.value xs + 1) by omega,
        Nat.mul_mod_mul_left]
      simp
    · have hsmall : x.toNat + 1 < 2 ^ 32 := by
        by_contra hge
        have htop : x.toNat = 2 ^ 32 - 1 := by omega
        apply hz
        apply UInt32.toNat_inj.mp
        rw [hone, htop]
        rfl
      rw [if_neg hz, Limbs.value, Limbs.value, hone, Nat.mod_eq_of_lt hsmall, Nat.mod_eq_of_lt (by omega)]
      omega

theorem value_increment (a : ArithUint256) : a.increment.value = (a.value + 1) % 2 ^ 256 := by
  have h := value_incrementLimbs a.pn
  rw [a.length_pn] at h
  exact h

theorem value_neg (a : ArithUint256) : a.neg.value = (2 ^ 256 - a.value) % 2 ^ 256 := by
  have hlt := a.value_lt
  rw [neg, value_increment, value_complement]
  omega

theorem addColumns_toNat (x y : UInt32) : (addColumns x y).toNat = x.toNat + y.toNat := by
  have hx := x.toNat_lt
  have hy := y.toNat_lt
  rw [addColumns, UInt64.toNat_add, UInt32.toNat_toUInt64, UInt32.toNat_toUInt64]
  omega

theorem addColumns_le (x y : UInt32) : (addColumns x y).toNat ≤ 2 ^ 64 - 2 ^ 32 := by
  have hx := x.toNat_lt
  have hy := y.toNat_lt
  rw [addColumns_toNat]
  omega

theorem value_add (a b : ArithUint256) : (a.add b).value = (a.value + b.value) % 2 ^ 256 := by
  have h := value_carry_zipWith addColumns_le a.pn b.pn
  have hcolumns := columns_zipWith (m := 1) (fun x y => by rw [addColumns_toNat, Nat.one_mul])
    (a.length_pn.trans b.length_pn.symm).le
  rw [← length_carry 0, a.length_add b, hcolumns, Nat.one_mul, List.take_of_length_le (by simp [length_pn])] at h
  exact h

theorem value_sub {a b : ArithUint256} (h : b.value ≤ a.value) : (a.sub b).value = a.value - b.value := by
  have ha := a.value_lt
  rw [sub, value_add, value_neg]
  omega

theorem mul_toNat_le (x y : UInt32) : x.toNat * y.toNat ≤ (2 ^ 32 - 1) * (2 ^ 32 - 1) :=
  Nat.mul_le_mul (Nat.le_pred_of_lt x.toNat_lt) (Nat.le_pred_of_lt y.toNat_lt)

theorem mulColumns_toNat (factor x y : UInt32) :
    (mulColumns factor x y).toNat = x.toNat + factor.toNat * y.toNat := by
  have hx := x.toNat_lt
  have hprod := mul_toNat_le factor y
  rw [mulColumns, UInt64.toNat_add, UInt64.toNat_mul, UInt32.toNat_toUInt64, UInt32.toNat_toUInt64,
    UInt32.toNat_toUInt64, Nat.mod_eq_of_lt (a := factor.toNat * y.toNat) (by omega), Nat.mod_eq_of_lt (by omega)]

theorem mulColumns_le (factor x y : UInt32) : (mulColumns factor x y).toNat ≤ 2 ^ 64 - 2 ^ 32 := by
  have hx := x.toNat_lt
  have hprod := mul_toNat_le factor y
  rw [mulColumns_toNat]
  omega

theorem value_mulRow {b a : List UInt32} {j : Nat} (factor : UInt32) (ha : a.length = 8) (hb : b.length = 8)
    (hj : j ≤ 8) :
    Limbs.value (mulRow b a j factor) =
      (Limbs.value a + 2 ^ (32 * j) * (factor.toNat * Limbs.value b)) % 2 ^ 256 := by
  have hdrop : (a.drop j).length = 8 - j := by simp [ha]
  have hlen : (List.zipWith (mulColumns factor) (a.drop j) b).length = 8 - j := by
    rw [List.length_zipWith, hdrop, hb]
    omega
  have hrow := value_carry_zipWith (mulColumns_le factor) (a.drop j) b
  rw [columns_zipWith (mulColumns_toNat factor) (by omega), hdrop, value_take_mod b (8 - j) (by omega), hlen] at hrow
  have htake := Limbs.value_lt (a.take j)
  have hsplit : 2 ^ 256 = 2 ^ (32 * j) * 2 ^ (32 * (8 - j)) := by
    rw [← pow_add]
    congr 1
    omega
  have htakelen : (a.take j).length = j := by
    rw [List.length_take, ha]
    omega
  rw [htakelen] at htake
  rw [mulRow, value_append, hrow, htakelen, ← value_take_drop a j (by omega), hsplit, Nat.mod_mul]
  rw [show Limbs.value (a.take j) + 2 ^ (32 * j) * Limbs.value (a.drop j) +
        2 ^ (32 * j) * (factor.toNat * Limbs.value b) =
      Limbs.value (a.take j) + 2 ^ (32 * j) * (Limbs.value (a.drop j) + factor.toNat * Limbs.value b) by ring,
    Nat.add_mul_mod_self_left, Nat.mod_eq_of_lt htake, Nat.add_mul_div_left _ _ (Nat.two_pow_pos _),
    Nat.div_eq_of_lt htake, Nat.zero_add]
  rw [Nat.add_mod, Nat.mul_mod, Nat.mod_mod, ← Nat.mul_mod, ← Nat.add_mod]

theorem value_mulRows {a b : List UInt32} (ha : a.length = 8) (hb : b.length = 8) {n : Nat} (hn : n ≤ 8) :
    Limbs.value (mulRows a b n) = (Limbs.value (a.take n) * Limbs.value b) % 2 ^ 256 := by
  induction n with
  | zero =>
    rw [List.take_zero, Limbs.value, Nat.zero_mul]
    rfl
  | succ n ih =>
    rw [mulRows, value_mulRow _ (length_mulRows hb n) hb (by omega), ih (by omega), value_take_succ a (by omega),
      Nat.mod_add_mod]
    congr 1
    ring

theorem value_mul (a b : ArithUint256) : (a.mul b).value = (a.value * b.value) % 2 ^ 256 := by
  have h := value_mulRows a.length_pn b.length_pn (n := 8) (Nat.le_refl 8)
  rw [List.take_of_length_le (by rw [a.length_pn])] at h
  exact h

theorem bitAt_ite_modify {l : List UInt32} (hl : l.length = 8) {c : Prop} [Decidable c] {i : Nat} (hi : c → i < 8)
    (x : UInt32) (p : Nat) :
    bitAt (if c then l.modify i (· ||| x) else l) p =
      (bitAt l p || (decide (c ∧ p / 32 = i) && x.toNat.testBit (p % 32))) := by
  by_cases hc : c
  · rw [if_pos hc, bitAt_modify_or, hl, decide_eq_true (hi hc)]
    simp [hc]
  · simp [hc]

/-- A loop in which round `q` alone sets a bit, and sets it to `b`. -/
theorem bitAt_foldl_steps {step : List UInt32 → Nat → List UInt32} {n p q : Nat} {b : Bool}
    (hlen : ∀ pn i, (step pn i).length = pn.length)
    (hstep : ∀ pn i, pn.length = 8 → i < n → bitAt (step pn i) p = (bitAt pn p || (decide (q = i) && b))) :
    bitAt ((List.range n).foldl step (List.replicate 8 0)) p = (decide (q < n) && b) := by
  induction n with
  | zero =>
    show bitAt (List.replicate 8 0) p = _
    rw [← testBit_value, value_replicate_zero, Nat.zero_testBit]
    rfl
  | succ n ih =>
    rw [List.range_succ, List.foldl_append]
    refine (hstep _ n (length_foldl_steps hlen n) (Nat.lt_succ_self n)).trans ?_
    rw [ih fun pn i hpn hi => hstep pn i hpn (by omega), ← Bool.and_or_distrib_right, ← Bool.decide_or]
    congr 2
    apply propext
    omega

theorem bitAt_shiftLeftStep (a : List UInt32) {pn : List UInt32} (hpn : pn.length = 8) (shift n : Nat) {p : Nat}
    (hp : p < 256) :
    bitAt (shiftLeftStep a (shift / 32) (shift % 32) pn n) p =
      (bitAt pn p || (decide ((p - shift) / 32 = n) && (decide (shift ≤ p) && bitAt a (p - shift)))) := by
  have hs : shift % 32 < 32 := Nat.mod_lt _ (by decide)
  have hv : p % 32 < 32 := Nat.mod_lt _ (by decide)
  rw [shiftLeftStep, bitAt_ite_modify (by rw [length_ite_modify, hpn]) id, bitAt_ite_modify hpn fun h => h.1,
    Bool.or_assoc, testBit_shiftLeft _ hs hv, bitAt, bitAt]
  congr 1
  rw [Bool.eq_iff_iff]
  simp only [Bool.or_eq_true, Bool.and_eq_true, decide_eq_true_eq]
  constructor
  · rintro (⟨hlimb, hx⟩ | ⟨hlimb, hle, hx⟩)
    · rw [testBit_shiftRight _ (by omega)] at hx
      have hlt := lt_of_testBit_toNat hx
      rw [show (p - shift) / 32 = n by omega, show (p - shift) % 32 = 32 - shift % 32 + p % 32 by omega]
      exact ⟨rfl, by omega, hx⟩
    · rw [show (p - shift) / 32 = n by omega, show (p - shift) % 32 = p % 32 - shift % 32 by omega]
      exact ⟨rfl, by omega, hx⟩
  · rintro ⟨hn, hle, hx⟩
    rw [hn] at hx
    by_cases hsv : shift % 32 ≤ p % 32
    · refine Or.inr ⟨by omega, hsv, ?_⟩
      rwa [show p % 32 - shift % 32 = (p - shift) % 32 by omega]
    · refine Or.inl ⟨by omega, ?_⟩
      rwa [testBit_shiftRight _ (by omega), show 32 - shift % 32 + p % 32 = (p - shift) % 32 by omega]

theorem value_shiftLeft (a : ArithUint256) (shift : Nat) :
    (a.shiftLeft shift).value = a.value * 2 ^ shift % 2 ^ 256 := by
  apply Nat.eq_of_testBit_eq
  intro p
  rw [Nat.testBit_mod_two_pow, Nat.testBit_mul_two_pow]
  by_cases hp : p < 256
  · have h := bitAt_foldl_steps (n := 8) (length_shiftLeftStep a.pn (shift / 32) (shift % 32))
      fun pn i hpn _ => bitAt_shiftLeftStep a.pn hpn shift i hp
    rw [← testBit_value, ← testBit_value, decide_eq_true (by omega), Bool.true_and] at h
    rw [decide_eq_true hp, Bool.true_and]
    exact h
  · rw [decide_eq_false hp]
    exact Nat.testBit_lt_two_pow
      (Nat.lt_of_lt_of_le (value_lt _) (Nat.pow_le_pow_right Nat.two_pos (Nat.le_of_not_lt hp)))

theorem bitAt_shiftRightStep (a : List UInt32) {pn : List UInt32} (hpn : pn.length = 8) (shift : Nat) {n : Nat}
    (hn : n < 8) (p : Nat) :
    bitAt (shiftRightStep a (shift / 32) (shift % 32) pn n) p =
      (bitAt pn p || (decide ((p + shift) / 32 = n) && bitAt a (p + shift))) := by
  have hs : shift % 32 < 32 := Nat.mod_lt _ (by decide)
  have hv : p % 32 < 32 := Nat.mod_lt _ (by decide)
  rw [shiftRightStep, bitAt_ite_modify (by rw [length_ite_modify, hpn]) (by omega), bitAt_ite_modify hpn (by omega),
    Bool.or_assoc, testBit_shiftRight _ hs, bitAt, bitAt]
  congr 1
  rw [Bool.eq_iff_iff]
  simp only [Bool.or_eq_true, Bool.and_eq_true, decide_eq_true_eq]
  constructor
  · rintro (⟨hlimb, hx⟩ | ⟨hlimb, hx⟩)
    · rw [testBit_shiftLeft _ (by omega) hv, Bool.and_eq_true, decide_eq_true_eq] at hx
      rw [show (p + shift) / 32 = n by omega, show (p + shift) % 32 = p % 32 - (32 - shift % 32) by omega]
      exact ⟨rfl, hx.2⟩
    · have hlt := lt_of_testBit_toNat hx
      rw [show (p + shift) / 32 = n by omega, show (p + shift) % 32 = shift % 32 + p % 32 by omega]
      exact ⟨rfl, hx⟩
  · rintro ⟨hin, hx⟩
    rw [hin] at hx
    by_cases hsv : shift % 32 + p % 32 < 32
    · refine Or.inr ⟨by omega, ?_⟩
      rwa [show shift % 32 + p % 32 = (p + shift) % 32 by omega]
    · refine Or.inl ⟨by omega, ?_⟩
      rw [testBit_shiftLeft _ (by omega) hv, decide_eq_true (by omega), Bool.true_and]
      rwa [show p % 32 - (32 - shift % 32) = (p + shift) % 32 by omega]

theorem value_shiftRight (a : ArithUint256) (shift : Nat) : (a.shiftRight shift).value = a.value / 2 ^ shift := by
  apply Nat.eq_of_testBit_eq
  intro p
  have h := bitAt_foldl_steps (length_shiftRightStep a.pn (shift / 32) (shift % 32))
    fun pn i hpn hi => bitAt_shiftRightStep a.pn hpn shift hi p
  rw [Nat.testBit_div_two_pow, value, value, testBit_value, testBit_value, shiftRight]
  refine h.trans ?_
  by_cases hp : (p + shift) / 32 < 8
  · rw [decide_eq_true hp, Bool.true_and]
  · have hbit : bitAt a.pn (p + shift) = false := by
      apply bitAt_of_le
      rw [a.length_pn]
      omega
    simp [hbit]

end ArithUint256

end Byze
