import Mathlib.Data.Nat.Bitwise
import Byze.Lib.LeadingBits

/-! The 32-bit compact form of a 256-bit target. A round trip through it keeps
the leading two or three bytes of the target and clears the rest. -/

namespace Byze
open LeadingBits

structure CompactValue where
  target : Nat
  negative : Bool
  overflow : Bool
  deriving DecidableEq, Repr

def setCompact (nCompact : Nat) : CompactValue :=
  let nSize := nCompact >>> 24
  let mask := nCompact &&& 0x007fffff
  let nWord := if nSize ≤ 3 then mask >>> (8 * (3 - nSize)) else mask
  { target := if nSize ≤ 3 then nWord else (nWord <<< (8 * (nSize - 3))) % 2 ^ 256
    negative := nWord != 0 && (nCompact &&& 0x00800000) != 0
    overflow := nWord != 0 && (decide (nSize > 34) || (decide (nWord > 0xff) && decide (nSize > 33)) ||
      (decide (nWord > 0xffff) && decide (nSize > 32))) }

def getLow64 (x : Nat) : Nat := x % 2 ^ 64

def getCompact (x : Nat) (fNegative : Bool) : Nat :=
  let nSize := (x.size + 7) / 8
  let word := (if nSize ≤ 3 then getLow64 x <<< (8 * (3 - nSize))
    else getLow64 (x >>> (8 * (nSize - 3)))) % 2 ^ 32
  -- the mantissa's top bit is the sign, so a byte is moved into the exponent
  let signed := (word &&& 0x00800000) != 0
  let nCompact := if signed then word >>> 8 else word
  let nSize := if signed then nSize + 1 else nSize
  let nCompact := nCompact ||| (nSize <<< 24)
  nCompact ||| (if fNegative && (nCompact &&& 0x007fffff) != 0 then 0x00800000 else 0)

def compactDrop (b : Nat) : Nat := 8 * (b / 8 - 2)

def compactRound (x : Nat) : Nat := round compactDrop x

theorem compactDrop_le (b : Nat) : compactDrop (b + 1) ≤ b := by
  unfold compactDrop
  omega

theorem compactRound_le (x : Nat) : compactRound x ≤ x := round_le _ x

theorem compactRound_mono {x y : Nat} (h : x ≤ y) : compactRound x ≤ compactRound y :=
  round_mono compactDrop_le h

theorem compactRound_idem (x : Nat) : compactRound (compactRound x) = compactRound x :=
  round_round compactDrop_le x

def compactWord (x : Nat) : Nat :=
  if x.size / 8 ≤ 2 then x * 2 ^ (8 * (2 - x.size / 8)) else x / 2 ^ compactDrop x.size

variable {x e k : Nat}

theorem div_two_pow_lt (h : x < 2 ^ (e + k)) : x / 2 ^ e < 2 ^ k := by
  apply Nat.div_lt_of_lt_mul
  rwa [← pow_add]

theorem le_div_two_pow (h : 2 ^ (e + k) ≤ x) : 2 ^ k ≤ x / 2 ^ e := by
  apply (Nat.le_div_iff_mul_le (Nat.two_pow_pos e)).mpr
  rwa [← pow_add, Nat.add_comm k e]

theorem mul_two_pow_lt (h : x.size + e ≤ k) : x * 2 ^ e < 2 ^ k := by
  calc x * 2 ^ e < 2 ^ x.size * 2 ^ e :=
        Nat.mul_lt_mul_of_pos_right (Nat.lt_size_self x) (Nat.two_pow_pos _)
    _ = 2 ^ (x.size + e) := by rw [← pow_add]
    _ ≤ 2 ^ k := Nat.pow_le_pow_right (by omega) h

theorem compactWord_lt (x : Nat) : compactWord x < 2 ^ 23 := by
  unfold compactWord compactDrop
  split
  · exact mul_two_pow_lt (by omega)
  · exact div_two_pow_lt (lt_of_lt_of_le (Nat.lt_size_self x) (Nat.pow_le_pow_right (by omega) (by omega)))

theorem and_signBit (w : Nat) : w &&& 0x00800000 = w / 2 ^ 23 % 2 * 2 ^ 23 := by
  rw [show (0x00800000 : Nat) = 2 ^ 23 by norm_num, Nat.and_two_pow, Nat.toNat_testBit]

theorem and_mantissa (w : Nat) : w &&& 0x007fffff = w % 2 ^ 23 := by
  rw [show (0x007fffff : Nat) = 2 ^ 23 - 1 by norm_num, Nat.and_two_pow_sub_one_eq_mod]

def topWord (x : Nat) : Nat :=
  if (x.size + 7) / 8 ≤ 3 then x * 2 ^ (8 * (3 - (x.size + 7) / 8))
  else x / 2 ^ (8 * ((x.size + 7) / 8 - 3))

theorem topWord_lt (x : Nat) : topWord x < 2 ^ 24 := by
  unfold topWord
  split
  · exact mul_two_pow_lt (by omega)
  · exact div_two_pow_lt (lt_of_lt_of_le (Nat.lt_size_self x) (Nat.pow_le_pow_right (by omega) (by omega)))

theorem getCompact_word (x : Nat) : (if (x.size + 7) / 8 ≤ 3 then getLow64 x <<< (8 * (3 - (x.size + 7) / 8))
      else getLow64 (x >>> (8 * ((x.size + 7) / 8 - 3)))) % 2 ^ 32 = topWord x := by
  have hw := topWord_lt x
  unfold getLow64
  unfold topWord at hw ⊢
  split
  · rename_i h
    have hlow : x < 2 ^ 64 :=
      lt_of_lt_of_le (Nat.lt_size_self x) (Nat.pow_le_pow_right (by omega) (by omega))
    rw [if_pos h] at hw
    rw [Nat.mod_eq_of_lt hlow, Nat.shiftLeft_eq, Nat.mod_eq_of_lt (lt_trans hw (by norm_num))]
  · rename_i h
    rw [if_neg h] at hw
    rw [Nat.shiftRight_eq_div_pow, Nat.mod_eq_of_lt (lt_trans hw (by norm_num)),
      Nat.mod_eq_of_lt (lt_trans hw (by norm_num))]

theorem topWord_of_mod (hm : x.size % 8 ≠ 0) : topWord x = compactWord x := by
  have hn : (x.size + 7) / 8 = x.size / 8 + 1 := by omega
  unfold topWord compactWord compactDrop
  rw [hn]
  by_cases h : x.size / 8 ≤ 2
  · rw [if_pos (by omega), if_pos h, show 3 - (x.size / 8 + 1) = 2 - x.size / 8 by omega]
  · rw [if_neg (by omega), if_neg h, show x.size / 8 + 1 - 3 = x.size / 8 - 2 by omega]

theorem topWord_of_full (hx : x ≠ 0) (hm : x.size % 8 = 0) :
    2 ^ 23 ≤ topWord x ∧ topWord x / 2 ^ 8 = compactWord x := by
  have hpos : 0 < x.size := Nat.size_pos.mpr (Nat.pos_of_ne_zero hx)
  have hle : 2 ^ (x.size - 1) ≤ x := Nat.lt_size.mp (by omega)
  have hn : (x.size + 7) / 8 = x.size / 8 := by omega
  unfold topWord compactWord compactDrop
  rw [hn]
  by_cases h : x.size / 8 ≤ 3
  · rw [if_pos h]
    constructor
    · calc 2 ^ 23 = 2 ^ (x.size - 1) * 2 ^ (8 * (3 - x.size / 8)) := by
            rw [← pow_add]
            congr 1
            omega
        _ ≤ x * 2 ^ (8 * (3 - x.size / 8)) := Nat.mul_le_mul_right _ hle
    · by_cases h2 : x.size / 8 ≤ 2
      · rw [if_pos h2, show 8 * (3 - x.size / 8) = 8 * (2 - x.size / 8) + 8 by omega, pow_add,
          ← Nat.mul_assoc, Nat.mul_div_cancel _ (by norm_num)]
      · have h3 : x.size / 8 = 3 := by omega
        rw [if_neg h2, h3]
        simp
  · rw [if_neg h, if_neg (by omega), Nat.div_div_eq_div_mul, ← pow_add,
      show 8 * (x.size / 8 - 3) + 8 = 8 * (x.size / 8 - 2) by omega]
    exact ⟨le_div_two_pow (le_trans (Nat.pow_le_pow_right (by omega) (by omega)) hle), rfl⟩

theorem or_shiftLeft_24 {w : Nat} (n : Nat) (hw : w < 2 ^ 24) : w ||| (n <<< 24) = n * 2 ^ 24 + w := by
  rw [Nat.lor_comm, ← Nat.shiftLeft_add_eq_or_of_lt hw, Nat.shiftLeft_eq]

theorem getCompact_eq (hx : x ≠ 0) : getCompact x false = (x.size / 8 + 1) * 2 ^ 24 + compactWord x := by
  have hw := compactWord_lt x
  unfold getCompact
  simp only [getCompact_word, Bool.false_and, Bool.false_eq_true, if_false, Nat.or_zero, and_signBit]
  by_cases hm : x.size % 8 = 0
  · obtain ⟨hle, hword⟩ := topWord_of_full hx hm
    have hs : topWord x / 2 ^ 23 % 2 = 1 := by
      have := topWord_lt x
      omega
    simp only [hs, Nat.one_mul, bne_iff_ne, ne_eq, Nat.pow_eq_zero, OfNat.ofNat_ne_zero, false_and,
      not_false_eq_true, if_true]
    rw [Nat.shiftRight_eq_div_pow, hword, or_shiftLeft_24 _ (by omega),
      show (x.size + 7) / 8 = x.size / 8 by omega]
  · have hs : compactWord x / 2 ^ 23 % 2 = 0 := by omega
    simp only [topWord_of_mod hm, hs, Nat.zero_mul, bne_self_eq_false, Bool.false_eq_true, if_false]
    rw [or_shiftLeft_24 _ (by omega), show (x.size + 7) / 8 = x.size / 8 + 1 by omega]

theorem setCompact_encoded {n w : Nat} (hw : w < 2 ^ 23) : setCompact (n * 2 ^ 24 + w) =
      let nWord := if n ≤ 3 then w / 2 ^ (8 * (3 - n)) else w
      { target := if n ≤ 3 then nWord else w * 2 ^ (8 * (n - 3)) % 2 ^ 256
        negative := false
        overflow := nWord != 0 && (decide (n > 34) || (decide (nWord > 0xff) && decide (n > 33)) ||
          (decide (nWord > 0xffff) && decide (n > 32))) } := by
  have hn : (n * 2 ^ 24 + w) / 2 ^ 24 = n := by omega
  have hm : (n * 2 ^ 24 + w) % 2 ^ 23 = w := by omega
  have hs : (n * 2 ^ 24 + w) / 2 ^ 23 % 2 = 0 := by omega
  unfold setCompact
  simp only [and_mantissa, and_signBit, Nat.shiftRight_eq_div_pow, Nat.shiftLeft_eq, hn, hm, hs]
  by_cases h3 : n ≤ 3
  · simp [h3]
  · simp [h3]

theorem setCompact_getCompact (hx : x < 2 ^ 256) :
    setCompact (getCompact x false) = ⟨compactRound x, false, false⟩ := by
  by_cases h0 : x = 0
  · subst h0
    decide
  have hsize : x.size ≤ 256 := Nat.size_le.mpr hx
  have hw := compactWord_lt x
  rw [getCompact_eq h0, setCompact_encoded hw]
  by_cases h : x.size / 8 ≤ 2
  · have hval : compactWord x / 2 ^ (8 * (3 - (x.size / 8 + 1))) = x := by
      unfold compactWord
      simp [h]
    have hround : compactRound x = x := by
      simp [compactRound, LeadingBits.round, compactDrop, show x.size / 8 - 2 = 0 by omega, clearLow]
    have h3 : x.size / 8 + 1 ≤ 3 := by omega
    simp only [h3, if_true, hval, hround, CompactValue.mk.injEq, true_and]
    simp
    omega
  · have hval : compactWord x * 2 ^ (8 * (x.size / 8 + 1 - 3)) = compactRound x := by
      unfold compactWord compactRound LeadingBits.round clearLow
      rw [if_neg h, show 8 * (x.size / 8 + 1 - 3) = compactDrop x.size by unfold compactDrop; omega]
    have hlt : compactRound x < 2 ^ 256 := lt_of_le_of_lt (compactRound_le x) hx
    have hover : x.size / 8 + 1 > 32 → compactWord x ≤ 0xffff := by
      intro h33
      unfold compactWord compactDrop
      rw [if_neg h]
      have := div_two_pow_lt (k := 16) (lt_of_lt_of_le (Nat.lt_size_self x)
        (Nat.pow_le_pow_right (n := 2) (by omega) (show x.size ≤ 8 * (x.size / 8 - 2) + 16 by omega)))
      omega
    have h3 : ¬ x.size / 8 + 1 ≤ 3 := by omega
    simp only [h3, if_false, hval, Nat.mod_eq_of_lt hlt, CompactValue.mk.injEq, true_and]
    simp
    omega

end Byze
