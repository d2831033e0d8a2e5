import Mathlib.Data.Rat.Floor
import Mathlib.Tactic

/-! Fees per size, over the integers and in the fixed-width integers of the program:
products of 96 bits, divisions that round down or up, and the order of fees per size. -/

namespace Byze

/-- A fee per size over the integers, for code that adds up fees and sizes. It is
what the program computes for as long as fees fit 64 bits and sizes 32. -/
structure FeeFrac where
  fee : Int
  size : Int
  deriving DecidableEq

namespace FeeFrac

def lower (a b : FeeFrac) : Bool := a.fee * b.size < b.fee * a.size

/-- The order of feerates. Of equal feerates, the larger size is the lower one. -/
def lt (a b : FeeFrac) : Bool :=
  if a.fee * b.size = b.fee * a.size then b.size < a.size else a.fee * b.size < b.fee * a.size

def min (a b : FeeFrac) : FeeFrac := if b.lt a then b else a

def evaluateFeeUp (r : FeeFrac) (atSize : Int) : Int := -(-(r.fee * atSize) / r.size)

theorem lt_iff (a b : FeeFrac) : a.lt b = true ↔ a.fee * b.size < b.fee * a.size ∨
    a.fee * b.size = b.fee * a.size ∧ b.size < a.size := by
  rw [lt]
  split_ifs with h <;> simp [h]

/-- Lower rates first, and of equal rates the larger size first. -/
def rank (r : FeeFrac) : ℚ ×ₗ ℤᵒᵈ := toLex ((r.fee : ℚ) / r.size, OrderDual.toDual r.size)

theorem rank_lt_iff {a b : FeeFrac} (ha : 0 < a.size) (hb : 0 < b.size) :
    a.rank < b.rank ↔ a.lt b = true := by
  have haq : (0 : ℚ) < a.size := by exact_mod_cast ha
  have hbq : (0 : ℚ) < b.size := by exact_mod_cast hb
  have hlt : (a.fee : ℚ) / a.size < b.fee / b.size ↔ a.fee * b.size < b.fee * a.size := by
    rw [div_lt_div_iff₀ haq hbq]
    exact_mod_cast Iff.rfl
  have heq : (a.fee : ℚ) / a.size = b.fee / b.size ↔ a.fee * b.size = b.fee * a.size := by
    rw [div_eq_div_iff haq.ne' hbq.ne']
    exact_mod_cast Iff.rfl
  rw [rank, rank, Prod.Lex.toLex_lt_toLex, hlt, heq, lt_iff]
  rfl

theorem rank_injective {a b : FeeFrac} (hb : 0 < b.size) (h : a.rank = b.rank) : a = b := by
  have hbq : (0 : ℚ) < b.size := by exact_mod_cast hb
  obtain ⟨hrate, hsize⟩ := Prod.mk.inj (toLex.injective h)
  have hsize : a.size = b.size := OrderDual.toDual.injective hsize
  rw [hsize, div_left_inj' hbq.ne'] at hrate
  cases a
  cases b
  simp_all

end FeeFrac

structure CFeeRate where
  feerate : FeeFrac
  size_nonneg : 0 ≤ feerate.size
  fee_eq_zero : feerate.size = 0 → feerate.fee = 0

namespace CFeeRate

def getFee (r : CFeeRate) (virtualBytes : Int) : Int :=
  if r.feerate.size = 0 then 0
  else
    let nFee := r.feerate.evaluateFeeUp virtualBytes
    if nFee = 0 ∧ virtualBytes ≠ 0 ∧ r.feerate.fee < 0 then -1 else nFee

def rate (r : CFeeRate) : ℚ := r.feerate.fee / r.feerate.size

end CFeeRate

end Byze

namespace Byze.FeeFracs

def lowWord (a : Int64) : UInt32 := a.toUInt64.toUInt32

def ofWord (x : UInt32) : Int64 := x.toUInt64.toInt64

theorem toInt_eq_bmod (a : Int64) : a.toInt = (a.toUInt64.toNat : Int).bmod (2 ^ 64) :=
  a.toBitVec.toInt_eq_toNat_bmod

theorem toNat_lowWord (a : Int64) : ((lowWord a).toNat : Int) = a.toInt % 2 ^ 32 := by
  have h : (a.toUInt64.toNat : Int).bmod (2 ^ 64) % (2 ^ 64 : Nat) = a.toUInt64.toNat % (2 ^ 64 : Nat) :=
    Int.bmod_emod
  rw [lowWord, UInt64.toNat_toUInt32, toInt_eq_bmod]
  omega

theorem toInt_ofWord (x : UInt32) : (ofWord x).toInt = x.toNat := by
  have hlt := x.toNat_lt
  have h : (ofWord x).toInt = (x.toUInt64.toNat : Int).bmod (2 ^ 64) := x.toUInt64.toBitVec.toInt_eq_toNat_bmod
  rw [h, UInt32.toNat_toUInt64, Int.bmod_eq_of_le (by omega) (by omega)]

theorem toInt_shiftRight_32 (a : Int64) : (a >>> 32).toInt = a.toInt / 2 ^ 32 := by
  have h : (a >>> 32).toInt = (a.toBitVec.sshiftRight 32).toInt := rfl
  rw [h, BitVec.toInt_sshiftRight, Int.shiftRight_eq_div_pow]
  rfl

theorem toInt_shiftLeft_32 (a : Int64) : (a <<< 32).toInt = (a.toInt * 2 ^ 32).bmod (2 ^ 64) := by
  have h : (a <<< 32).toInt = (a.toBitVec <<< 32).toInt := rfl
  rw [h, BitVec.toInt_shiftLeft, Nat.shiftLeft_eq, toInt_eq_bmod, Int.bmod_mul_bmod]
  rfl

def Fits (x : Int) : Prop := -2 ^ 63 ≤ x ∧ x < 2 ^ 63

theorem Fits.bmod_eq {x : Int} (h : Fits x) : x.bmod (2 ^ 64) = x :=
  Int.bmod_eq_of_le (by have := h.1; omega) (by have := h.2; omega)

inductive Platform | int128 | fallback

def mulFallback (a : Int64) (b : Int32) : Int64 × UInt32 :=
  let low := ofWord (lowWord a) * b.toInt64
  let high := (a >>> 32) * b.toInt64
  (high + (low >>> 32), lowWord low)

def mul (a : Int64) (b : Int32) : Int := (a.toInt * b.toInt).bmod (2 ^ 128)

def correction (mod : Int32) (roundDown : Bool) : Int64 :=
  (if 0 < mod then 1 else 0) - (if mod ≠ 0 ∧ roundDown = true then 1 else 0)

def divFallback (n : Int64 × UInt32) (d : Int32) (roundDown : Bool) : Int64 :=
  let quotHigh := n.1 / d.toInt64
  let nLow := ((n.1 % d.toInt64) <<< 32) + ofWord n.2
  let quotLow := nLow / d.toInt64
  let modLow := (nLow % d.toInt64).toInt32
  (quotHigh <<< 32) + (quotLow + correction modLow roundDown)

def div (n : Int) (d : Int32) (roundDown : Bool) : Int64 :=
  Int64.ofInt (n.tdiv d.toInt) + correction (Int32.ofInt (n.tmod d.toInt)) roundDown

def Platform.mulDiv : Platform → Int64 → Int32 → Int32 → Bool → Int64
  | .int128, a, b, d, roundDown => div (mul a b) d roundDown
  | .fallback, a, b, d, roundDown => divFallback (mulFallback a b) d roundDown

def comparePairs (x y : Int64 × UInt32) : Ordering :=
  (compare x.1 y.1).then (compare x.2 y.2)

def Platform.compareMul : Platform → Int64 → Int32 → Int64 → Int32 → Ordering
  | .int128, a, b, c, d => compare (mul a b) (mul c d)
  | .fallback, a, b, c, d => comparePairs (mulFallback a b) (mulFallback c d)

@[ext]
structure FeeFrac where
  fee : Int64
  size : Int32
deriving DecidableEq

namespace FeeFrac

def feeRateCompare (p : Platform) (a b : FeeFrac) : Ordering :=
  p.compareMul a.fee b.size b.fee a.size

def spaceship (p : Platform) (a b : FeeFrac) : Ordering :=
  if feeRateCompare p a b = .eq then compare b.size a.size else feeRateCompare p a b

def evaluateFee (p : Platform) (f : FeeFrac) (roundDown : Bool) (atSize : Int32) : Int64 :=
  if 0 ≤ f.fee ∧ f.fee < 0x200000000 then
    let product := f.fee.toUInt64 * atSize.toInt64.toUInt64
    if roundDown then
      (product / f.size.toUInt32.toUInt64).toInt64
    else
      ((product + f.size.toInt64.toUInt64 - 1) / f.size.toUInt32.toUInt64).toInt64
  else
    p.mulDiv f.fee atSize f.size roundDown

/-- Of positive size, or empty. -/
def Valid (f : FeeFrac) : Prop := 0 < f.size.toInt ∨ f.size = 0 ∧ f.fee = 0

def exact (f : FeeFrac) : Byze.FeeFrac := ⟨f.fee.toInt, f.size.toInt⟩

/-- By rate and size, the empty one last. -/
def key (f : FeeFrac) : WithTop (ℚ ×ₗ ℤᵒᵈ) := if f.size = 0 then ⊤ else WithTop.some f.exact.rank

end FeeFrac

section

def rounded (n d : Int) : Bool → Int
  | true => n / d
  | false => -(-n / d)

theorem toInt_mulFallback (a : Int64) (b : Int32) :
    (mulFallback a b).1.toInt * 2 ^ 32 + (mulFallback a b).2.toNat = a.toInt * b.toInt := by
  have ha := a.le_toInt
  have ha' := a.toInt_lt
  have hb := b.le_toInt
  have hb' := b.toInt_lt
  have hq := toInt_shiftRight_32 a
  have hr := toNat_lowWord a
  have hqr := Int.emod_add_mul_ediv a.toInt (2 ^ 32)
  have hq' : -2 ^ 31 ≤ a.toInt / 2 ^ 32 ∧ a.toInt / 2 ^ 32 < 2 ^ 31 := by omega
  have hr' : 0 ≤ a.toInt % 2 ^ 32 ∧ a.toInt % 2 ^ 32 < 2 ^ 32 := by omega
  generalize a.toInt / 2 ^ 32 = q at *
  generalize a.toInt % 2 ^ 32 = r at *
  have hlow : (ofWord (lowWord a) * b.toInt64).toInt = r * b.toInt := by
    have hfits : Fits (r * b.toInt) := by
      constructor <;> nlinarith
    rw [Int64.toInt_mul, toInt_ofWord, hr, Int32.toInt_toInt64, hfits.bmod_eq]
  have hbound : -2 ^ 62 ≤ q * b.toInt ∧ q * b.toInt ≤ 2 ^ 62 := by
    constructor <;> nlinarith
  have hl := (ofWord (lowWord a) * b.toInt64).le_toInt
  have hl' := (ofWord (lowWord a) * b.toInt64).toInt_lt
  have hsum : (mulFallback a b).1.toInt = q * b.toInt + r * b.toInt / 2 ^ 32 := by
    rw [mulFallback, Int64.toInt_add, Int64.toInt_mul, hq, Int32.toInt_toInt64,
      Fits.bmod_eq (x := q * b.toInt) ⟨by omega, by omega⟩, toInt_shiftRight_32, hlow,
      Fits.bmod_eq ⟨by omega, by omega⟩]
  have hword : ((mulFallback a b).2.toNat : Int) = r * b.toInt % 2 ^ 32 := by
    rw [mulFallback, toNat_lowWord, hlow]
  have hsplit : a.toInt * b.toInt = q * b.toInt * 2 ^ 32 + r * b.toInt := by
    linear_combination (b.toInt : Int) * hqr.symm
  omega

theorem mul_eq (a : Int64) (b : Int32) : mul a b = a.toInt * b.toInt := by
  have ha := a.le_toInt
  have ha' := a.toInt_lt
  have hb := b.le_toInt
  have hb' := b.toInt_lt
  have h : -2 ^ 94 ≤ a.toInt * b.toInt ∧ a.toInt * b.toInt ≤ 2 ^ 94 := by
    constructor <;> nlinarith
  exact Int.bmod_eq_of_le (by omega) (by omega)

theorem tdiv_add_correction {n d : Int} (hd : 0 < d) (roundDown : Bool) :
    n.tdiv d + ((if 0 < n.tmod d then 1 else 0)
      - (if n.tmod d ≠ 0 ∧ roundDown = true then 1 else 0)) = rounded n d roundDown := by
  have hn := Int.tmod_add_mul_tdiv n d
  have hlt := Int.tmod_lt_of_pos n hd
  have hgt := Int.lt_tmod_of_pos n hd
  generalize n.tdiv d = q at *
  generalize n.tmod d = r at *
  have floor {m r q : Int} (h : r + d * q = m) (h0 : 0 ≤ r) (h1 : r < d) : m / d = q :=
    ((Int.ediv_emod_unique hd).2 ⟨h, h0, h1⟩).1
  cases roundDown with
  | true =>
    by_cases h0 : 0 ≤ r
    · rw [rounded, floor hn h0 hlt]
      grind
    · rw [rounded, floor (r := r + d) (q := q - 1) (by linarith) (by omega) (by omega)]
      grind
  | false =>
    by_cases h0 : 0 < r
    · rw [rounded, floor (r := d - r) (q := -q - 1) (by linarith) (by omega) (by omega)]
      grind
    · rw [rounded, floor (r := -r) (q := -q) (by linarith) (by omega) (by omega)]
      grind

theorem toInt_correction (mod : Int32) (roundDown : Bool) :
    (correction mod roundDown).toInt = (if 0 < mod.toInt then 1 else 0)
      - (if mod.toInt ≠ 0 ∧ roundDown = true then 1 else 0) := by
  have hpos : 0 < mod ↔ 0 < mod.toInt := Int32.lt_iff_toInt_lt
  have hzero : mod = 0 ↔ mod.toInt = 0 := Int32.toInt_inj.symm
  simp only [correction, hpos, ne_eq, hzero]
  split_ifs <;> rfl

variable {roundDown : Bool}

theorem toInt_div {n : Int} {d : Int32} (hd : 0 < d.toInt) (h : Fits (rounded n d.toInt roundDown)) :
    (div n d roundDown).toInt = rounded n d.toInt roundDown := by
  have hlt := Int.tmod_lt_of_pos n hd
  have hgt := Int.lt_tmod_of_pos n hd
  have hd' := d.toInt_lt
  have hmod : (Int32.ofInt (n.tmod d.toInt)).toInt = n.tmod d.toInt := by
    rw [Int32.toInt_ofInt]
    exact Int.bmod_eq_of_le (by simp only [Int32.size]; omega) (by simp only [Int32.size]; omega)
  rw [div, Int64.toInt_add, Int64.toInt_ofInt, toInt_correction, hmod]
  rw [Int.bmod_add_bmod, tdiv_add_correction hd]
  exact h.bmod_eq

theorem rounded_add_mul {d : Int} (hd : 0 < d) (n q : Int) (roundDown : Bool) :
    rounded (n + d * q) d roundDown = rounded n d roundDown + q := by
  cases roundDown with
  | true => exact Int.add_mul_ediv_left n q hd.ne'
  | false =>
    have h : -(n + d * q) = -n + d * -q := by ring
    rw [rounded, h, Int.add_mul_ediv_left _ _ hd.ne', rounded]
    ring

theorem toInt_divFallback {n : Int64 × UInt32} {x : Int} {d : Int32}
    (hx : n.1.toInt * 2 ^ 32 + n.2.toNat = x) (hd : 0 < d.toInt)
    (h : Fits (rounded x d.toInt roundDown)) :
    (divFallback n d roundDown).toInt = rounded x d.toInt roundDown := by
  have hlt := Int.tmod_lt_of_pos n.1.toInt hd
  have hgt := Int.lt_tmod_of_pos n.1.toInt hd
  have hd' := d.toInt_lt
  have hw := n.2.toNat_lt
  have hlow : (((n.1 % d.toInt64) <<< 32) + ofWord n.2).toInt
      = n.1.toInt.tmod d.toInt * 2 ^ 32 + n.2.toNat := by
    rw [Int64.toInt_add, toInt_shiftLeft_32, toInt_ofWord, Int64.toInt_mod, Int32.toInt_toInt64,
      Int.bmod_add_bmod, Fits.bmod_eq ⟨by omega, by omega⟩]
  set nLow := ((n.1 % d.toInt64) <<< 32) + ofWord n.2 with hnLow
  have hlt' := Int.tmod_lt_of_pos nLow.toInt hd
  have hgt' := Int.lt_tmod_of_pos nLow.toInt hd
  have hmod : (nLow % d.toInt64).toInt32.toInt = nLow.toInt.tmod d.toInt := by
    rw [Int64.toInt_toInt32, Int64.toInt_mod, Int32.toInt_toInt64]
    exact Int.bmod_eq_of_le (by omega) (by omega)
  have hn : x = nLow.toInt + d.toInt * (n.1.toInt.tdiv d.toInt * 2 ^ 32) := by
    linear_combination (2 ^ 32 : Int) * (Int.tmod_add_mul_tdiv n.1.toInt d.toInt).symm - hlow - hx
  have hres : (divFallback n d roundDown).toInt
      = (n.1.toInt.tdiv d.toInt * 2 ^ 32 + rounded nLow.toInt d.toInt roundDown).bmod (2 ^ 64) := by
    rw [← tdiv_add_correction hd, divFallback, Int64.toInt_add, Int64.toInt_add, toInt_shiftLeft_32,
      toInt_correction, ← hnLow, hmod]
    simp
  rw [hres, add_comm, ← rounded_add_mul hd, ← hn, h.bmod_eq]

theorem toInt_mulDiv (p : Platform) {a : Int64} {b d : Int32} (hd : 0 < d.toInt)
    (h : Fits (rounded (a.toInt * b.toInt) d.toInt roundDown)) :
    (p.mulDiv a b d roundDown).toInt = rounded (a.toInt * b.toInt) d.toInt roundDown := by
  cases p with
  | int128 =>
    rw [← mul_eq] at h ⊢
    exact toInt_div hd h
  | fallback => exact toInt_divFallback (toInt_mulFallback a b) hd h
end

theorem rounded_false_eq {n d : Int} (hd : 0 < d) : rounded n d false = (n + d - 1) / d := by
  have hm := Int.emod_add_mul_ediv (n + d - 1) d
  have h0 := Int.emod_nonneg (n + d - 1) hd.ne'
  have h1 := Int.emod_lt_of_pos (n + d - 1) hd
  have h := ((Int.ediv_emod_unique hd (a := -n) (r := d - 1 - (n + d - 1) % d)
    (q := -((n + d - 1) / d))).2 ⟨by linarith, by omega, by omega⟩).1
  simp [rounded, h]

theorem toNat_toUInt64 {a : Int64} (h : 0 ≤ a.toInt) : (a.toUInt64.toNat : Int) = a.toInt := by
  rw [Int64.toNat_toUInt64_of_le (Int64.le_iff_toInt_le.2 h), Int64.toInt_eq_toNatClampNeg (Int64.le_iff_toInt_le.2 h)]

theorem toNat_toUInt32 {a : Int32} (h : 0 ≤ a.toInt) : (a.toUInt32.toUInt64.toNat : Int) = a.toInt := by
  simp [Int32.toNat_toUInt32_of_le (Int32.le_iff_toInt_le.2 h),
    Int32.toInt_eq_toNatClampNeg (Int32.le_iff_toInt_le.2 h)]

theorem toInt_toInt64 (x : UInt64) : x.toInt64.toInt = (x.toNat : Int).bmod (2 ^ 64) :=
  toInt_eq_bmod x.toInt64

theorem toInt_evaluateFee (p : Platform) {f : FeeFrac} {roundDown : Bool} {atSize : Int32}
    (hsize : 0 < f.size.toInt) (hat : 0 ≤ atSize.toInt)
    (h : Fits (rounded (f.fee.toInt * atSize.toInt) f.size.toInt roundDown)) :
    (f.evaluateFee p roundDown atSize).toInt
      = rounded (f.fee.toInt * atSize.toInt) f.size.toInt roundDown := by
  by_cases hfast : 0 ≤ f.fee ∧ f.fee < 0x200000000
  · have hfee : 0 ≤ f.fee.toInt ∧ f.fee.toInt < 0x200000000 :=
      ⟨Int64.le_iff_toInt_le.1 hfast.1, Int64.lt_iff_toInt_lt.1 hfast.2⟩
    have hf := toNat_toUInt64 hfee.1
    have ha : (atSize.toInt64.toUInt64.toNat : Int) = atSize.toInt := by
      simp [toNat_toUInt64 (by rwa [Int32.toInt_toInt64])]
    have hs : (f.size.toInt64.toUInt64.toNat : Int) = f.size.toInt := by
      rw [toNat_toUInt64 (by rw [Int32.toInt_toInt64]; omega), Int32.toInt_toInt64]
    have hs' := toNat_toUInt32 hsize.le
    have hat' := atSize.toInt_lt
    have hsize' := f.size.toInt_lt
    have hbound : 0 ≤ f.fee.toInt * atSize.toInt ∧ f.fee.toInt * atSize.toInt < 2 ^ 64 - 2 ^ 33 := by
      constructor <;> nlinarith
    have hprod : ((f.fee.toUInt64 * atSize.toInt64.toUInt64).toNat : Int) = f.fee.toInt * atSize.toInt := by
      rw [UInt64.toNat_mul]
      push_cast
      rw [hf, ha, Int.emod_eq_of_lt hbound.1 (by omega)]
    rw [FeeFrac.evaluateFee, if_pos hfast, ← h.bmod_eq]
    cases roundDown with
    | true =>
      change (_ / _ : UInt64).toInt64.toInt = _
      rw [toInt_toInt64, UInt64.toNat_div]
      push_cast
      rw [hprod, hs', rounded]
    | false =>
      have hsum : ((f.fee.toUInt64 * atSize.toInt64.toUInt64 + f.size.toInt64.toUInt64 - 1).toNat
          : Int) = f.fee.toInt * atSize.toInt + f.size.toInt - 1 := by
        have hone : (1 : UInt64).toNat = 1 := rfl
        rw [UInt64.toNat_sub, UInt64.toNat_add, hone]
        omega
      change (_ / _ : UInt64).toInt64.toInt = _
      rw [toInt_toInt64, UInt64.toNat_div]
      push_cast
      rw [hsum, hs', rounded_false_eq hsize]
  · rw [FeeFrac.evaluateFee, if_neg hfast]
    exact toInt_mulDiv p hsize h

/-- A fee rounded up is that over the integers where it fits 64 bits. -/
theorem FeeFrac.evaluateFee_exact (p : Platform) {f : FeeFrac} {atSize : Int32} (hsize : 0 < f.size.toInt)
    (hat : 0 ≤ atSize.toInt) (h : Fits (f.exact.evaluateFeeUp atSize.toInt)) :
    (f.evaluateFee p false atSize).toInt = f.exact.evaluateFeeUp atSize.toInt :=
  toInt_evaluateFee p hsize hat h

theorem floor_eq_rounded (n : Int) {d : Int} (hd : 0 < d) : ⌊(n : ℚ) / d⌋ = rounded n d true := by
  lift d to ℕ using hd.le
  exact_mod_cast Rat.floor_intCast_div_natCast n d

theorem ceil_eq_rounded (n : Int) {d : Int} (hd : 0 < d) : ⌈(n : ℚ) / d⌉ = rounded n d false := by
  have h := floor_eq_rounded (-n) hd
  rw [rounded] at h
  rw [rounded, ← h, ← Int.ceil_neg]
  push_cast
  ring_nf

theorem compare_int64 (a b : Int64) : compare a b = compare a.toInt b.toInt := by
  change compareOfLessAndEq a b = compareOfLessAndEq a.toInt b.toInt
  simp [compareOfLessAndEq, Int64.lt_iff_toInt_lt, Int64.toInt_inj]

theorem compare_int32 (a b : Int32) : compare a b = compare a.toInt b.toInt := by
  change compareOfLessAndEq a b = compareOfLessAndEq a.toInt b.toInt
  simp [compareOfLessAndEq, Int32.lt_iff_toInt_lt, Int32.toInt_inj]

theorem comparePairs_eq (x y : Int64 × UInt32) : comparePairs x y
    = compare (x.1.toInt * 2 ^ 32 + x.2.toNat) (y.1.toInt * 2 ^ 32 + y.2.toNat) := by
  have hx := x.2.toNat_lt
  have hy := y.2.toNat_lt
  rw [comparePairs, compare_int64, UInt32.compare_eq_toNat_compare_toNat]
  rcases lt_trichotomy x.1.toInt y.1.toInt with h | h | h
  · have hsum : x.1.toInt * 2 ^ 32 + x.2.toNat < y.1.toInt * 2 ^ 32 + y.2.toNat := by omega
    rw [compare_lt_iff_lt.2 h, compare_lt_iff_lt.2 hsum]
    rfl
  · rw [compare_eq_iff_eq.2 h, h]
    change compareOfLessAndEq x.2.toNat y.2.toNat = compareOfLessAndEq _ _
    simp [compareOfLessAndEq]
  · have hsum : x.1.toInt * 2 ^ 32 + x.2.toNat > y.1.toInt * 2 ^ 32 + y.2.toNat := by omega
    rw [compare_gt_iff_gt.2 h, compare_gt_iff_gt.2 hsum]
    rfl

theorem compareMul_eq (p : Platform) (a : Int64) (b : Int32) (c : Int64) (d : Int32) :
    p.compareMul a b c d = compare (a.toInt * b.toInt) (c.toInt * d.toInt) := by
  cases p with
  | int128 => rw [Platform.compareMul, mul_eq, mul_eq]
  | fallback => rw [Platform.compareMul, comparePairs_eq, toInt_mulFallback, toInt_mulFallback]

namespace FeeFrac

theorem feeRateCompare_lt_iff (p : Platform) (a b : FeeFrac) :
    feeRateCompare p a b = .lt ↔ a.exact.lower b.exact = true := by
  rw [feeRateCompare, compareMul_eq, compare_lt_iff_lt, Byze.FeeFrac.lower, decide_eq_true_iff]
  rfl

theorem spaceship_lt_iff (p : Platform) (a b : FeeFrac) :
    spaceship p a b = .lt ↔ a.exact.lt b.exact = true := by
  have hmul : feeRateCompare p a b =
      compare (a.exact.fee * b.exact.size) (b.exact.fee * a.exact.size) := compareMul_eq p _ _ _ _
  have hsize : compare b.size a.size = compare b.exact.size a.exact.size := compare_int32 _ _
  rw [spaceship, hmul, hsize, Byze.FeeFrac.lt_iff]
  rcases lt_trichotomy (a.exact.fee * b.exact.size) (b.exact.fee * a.exact.size) with h | h | h
  · simp [compare_lt_iff_lt.2 h, h]
  · simp [h, compare_lt_iff_lt]
  · simp [compare_gt_iff_gt.2 h, h.not_gt, h.ne']

theorem size_ne_zero {f : FeeFrac} (h : 0 < f.size.toInt) : f.size ≠ 0 := by
  rintro h0
  rw [h0] at h
  exact absurd h (by decide)

theorem key_of_pos {f : FeeFrac} (h : 0 < f.size.toInt) : f.key = WithTop.some f.exact.rank :=
  if_neg (size_ne_zero h)

theorem spaceship_lt_iff_key (p : Platform) {a b : FeeFrac} (ha : a.Valid) (hb : b.Valid) :
    spaceship p a b = .lt ↔ a.key < b.key := by
  rw [spaceship_lt_iff]
  rcases ha with ha | ⟨ha, ha'⟩
  · rcases hb with hb | ⟨hb, hb'⟩
    · rw [key_of_pos ha, key_of_pos hb, WithTop.coe_lt_coe, Byze.FeeFrac.rank_lt_iff ha hb]
    · simp [key, Byze.FeeFrac.lt, exact, hb, hb', ha, size_ne_zero ha]
  · rcases hb with hb | ⟨hb, hb'⟩
    · simp [key, Byze.FeeFrac.lt, exact, ha, ha', hb.le]
    · simp [key, Byze.FeeFrac.lt, exact, ha, ha', hb, hb']

theorem exact_injective {a b : FeeFrac} (h : a.exact = b.exact) : a = b := by
  obtain ⟨hfee, hsize⟩ := Byze.FeeFrac.mk.inj h
  exact FeeFrac.ext (Int64.toInt_inj.1 hfee) (Int32.toInt_inj.1 hsize)

theorem eq_of_key_eq {a b : FeeFrac} (ha : a.Valid) (hb : b.Valid) (h : a.key = b.key) : a = b := by
  rcases ha with ha | ⟨ha, ha'⟩
  · rcases hb with hb | ⟨hb, -⟩
    · rw [key_of_pos ha, key_of_pos hb] at h
      exact exact_injective (Byze.FeeFrac.rank_injective hb (WithTop.coe_injective h))
    · simp [key, hb, size_ne_zero ha] at h
  · rcases hb with hb | ⟨hb, hb'⟩
    · simp [key, ha, size_ne_zero hb] at h
    · exact FeeFrac.ext (ha'.trans hb'.symm) (ha.trans hb.symm)

end FeeFrac

/-- Divisions of products round down and up, and so does `evaluateFee` on its
precondition that the size is positive and the other one not negative. The
fallback's pairs are ordered as the products are, and the order of fees per size
is a strict total one. -/
theorem feeFrac_arithmetic_exact (p : Platform) : (∀ (f : FeeFrac) (atSize : Int32), 0 < f.size → ∀ x : ℚ,
      x = f.fee.toInt * atSize.toInt / f.size.toInt →
      (Fits ⌊x⌋ → (p.mulDiv f.fee atSize f.size true).toInt = ⌊x⌋ ∧
        (0 ≤ atSize → (f.evaluateFee p true atSize).toInt = ⌊x⌋)) ∧
      (Fits ⌈x⌉ → (p.mulDiv f.fee atSize f.size false).toInt = ⌈x⌉ ∧
        (0 ≤ atSize → (f.evaluateFee p false atSize).toInt = ⌈x⌉))) ∧
    (∀ (a : Int64) (b : Int32) (c : Int64) (d : Int32), comparePairs (mulFallback a b) (mulFallback c d)
        = compare (a.toInt * b.toInt) (c.toInt * d.toInt)) ∧
    IsStrictTotalOrder {f : FeeFrac // f.Valid} (fun a b => FeeFrac.spaceship p a b = .lt) ∧
    ∀ a b : FeeFrac, a.Valid → b.Valid → (FeeFrac.spaceship p a b = .lt ↔ a.key < b.key) := by
  have hlt (a b : FeeFrac) (ha : a.Valid) (hb : b.Valid) := FeeFrac.spaceship_lt_iff_key p ha hb
  refine ⟨fun f atSize hsize x hx => ?_, compareMul_eq .fallback, ?_, hlt⟩
  · have hsize' : 0 < f.size.toInt := Int32.lt_iff_toInt_lt.1 hsize
    have hfloor : ⌊x⌋ = rounded (f.fee.toInt * atSize.toInt) f.size.toInt true := by
      rw [hx, ← floor_eq_rounded _ hsize']
      push_cast
      rfl
    have hceil : ⌈x⌉ = rounded (f.fee.toInt * atSize.toInt) f.size.toInt false := by
      rw [hx, ← ceil_eq_rounded _ hsize']
      push_cast
      rfl
    have heval {roundDown : Bool} (h : Fits (rounded (f.fee.toInt * atSize.toInt) f.size.toInt roundDown)) :=
      And.intro (toInt_mulDiv p hsize' h) fun hat : 0 ≤ atSize =>
        toInt_evaluateFee p hsize' (Int32.le_iff_toInt_le.1 hat) h
    rw [hfloor, hceil]
    exact ⟨heval, heval⟩
  · have hinj : Function.Injective fun f : {f : FeeFrac // f.Valid} => f.1.key :=
      fun a b h => Subtype.ext (FeeFrac.eq_of_key_eq a.2 b.2 h)
    have hrel : (fun a b : {f : FeeFrac // f.Valid} => FeeFrac.spaceship p a b = .lt)
        = Order.Preimage (fun f => f.1.key) (· < ·) :=
      funext fun a => funext fun b => propext (hlt a b a.2 b.2)
    rw [hrel]
    exact (RelEmbedding.preimage ⟨_, hinj⟩ (· < ·)).isStrictTotalOrder

end Byze.FeeFracs
