import Byze.ArithDivision
import Byze.BlockAcceptance

/-! The compact form of a target and the work of a block, computed on limbs:
they are the ones the chain's own rules use on plain numbers. -/

namespace Byze
open Limbs LeadingBits

namespace ArithUint256

structure FromCompact where
  target : ArithUint256
  negative : Bool
  overflow : Bool

def setCompact (nCompact : UInt32) : FromCompact :=
  let nSize := (nCompact >>> 24).toNat
  let mask := nCompact &&& 0x007fffff
  let nWord := if nSize ≤ 3 then mask >>> UInt32.ofNat (8 * (3 - nSize)) else mask
  { target := if nSize ≤ 3 then ofUInt64 nWord.toUInt64
      else (ofUInt64 nWord.toUInt64).shiftLeft (8 * (nSize - 3))
    negative := nWord != 0 && (nCompact &&& 0x00800000) != 0
    overflow := nWord != 0 && (decide (nSize > 34) || (decide (nWord > 0xff) && decide (nSize > 33)) ||
      (decide (nWord > 0xffff) && decide (nSize > 32))) }

def compactMantissa (x : ArithUint256) (nSize : Nat) : UInt32 :=
  if nSize ≤ 3 then (x.getLow64 <<< UInt64.ofNat (8 * (3 - nSize))).toUInt32
  else (x.shiftRight (8 * (nSize - 3))).getLow64.toUInt32

/-- `none` is a failed assertion. -/
def getCompact (x : ArithUint256) (fNegative : Bool) : Option UInt32 :=
  let nSize := (x.bits + 7) / 8
  let word := x.compactMantissa nSize
  let signed := (word &&& 0x00800000) != 0
  let nCompact := if signed then word >>> 8 else word
  let nSize := if signed then nSize + 1 else nSize
  if (nCompact &&& ~~~0x007fffff) ≠ 0 then none
  else if ¬nSize < 256 then none
  else
    let nCompact := nCompact ||| UInt32.ofNat (nSize <<< 24)
    some (nCompact ||| (if fNegative && (nCompact &&& 0x007fffff) != 0 then 0x00800000 else 0))

def getBlockProof (nBits : UInt32) : Except String ArithUint256 :=
  let r := setCompact nBits
  if r.negative || r.overflow || r.target.equalTo 0 then .ok (ofUInt64 0)
  else do
    let quotient ← r.target.complement.divide (r.target.add (ofUInt64 1))
    return quotient.add (ofUInt64 1)

theorem bne_zero_eq (x : UInt32) : (x != 0) = (x.toNat != 0) := by
  have hx : x.toNat = 0 ↔ x = 0 := UInt32.toNat_inj (b := 0)
  rw [Bool.eq_iff_iff, bne_iff_ne, bne_iff_ne, ne_eq, ne_eq, hx]

theorem toNat_shiftRight_ofNat (x : UInt32) {s : Nat} (hs : s < 32) : (x >>> UInt32.ofNat s).toNat = x.toNat >>> s := by
  rw [UInt32.toNat_shiftRight, Limbs.toNat_ofNat_mod hs]

theorem setCompact_eq (nCompact : UInt32) : Byze.setCompact nCompact.toNat =
      ⟨(setCompact nCompact).target.value, (setCompact nCompact).negative, (setCompact nCompact).overflow⟩ := by
  have hsize : nCompact.toNat >>> 24 = (nCompact >>> 24).toNat := by
    rfl
  have hmask : nCompact.toNat &&& 0x007fffff = (nCompact &&& 0x007fffff).toNat := by
    rfl
  have hvalue : ∀ w : UInt32, (ofUInt64 w.toUInt64).value = w.toNat := by
    intro w
    simp [value_ofUInt64]
  rw [Byze.setCompact, setCompact]
  simp only [hsize, hmask]
  have hshift := toNat_shiftRight_ofNat (nCompact &&& 0x007fffff)
    (show 8 * (3 - (nCompact >>> 24).toNat) < 32 by omega)
  by_cases h3 : (nCompact >>> 24).toNat ≤ 3
  · simp only [if_pos h3, ← hshift, hvalue, bne_zero_eq]
    rfl
  · simp only [if_neg h3, value_shiftLeft, hvalue, Nat.shiftLeft_eq, bne_zero_eq]
    rfl

theorem toNat_compactMantissa (x : ArithUint256) :
    (x.compactMantissa ((x.bits + 7) / 8)).toNat = topWord x.value := by
  rw [← getCompact_word, compactMantissa, bits_eq_size]
  by_cases h3 : (x.value.size + 7) / 8 ≤ 3
  · have hof : (UInt64.ofNat (8 * (3 - (x.value.size + 7) / 8))).toNat % 64 = 8 * (3 - (x.value.size + 7) / 8) := by
      rw [UInt64.toNat_ofNat']
      omega
    rw [if_pos h3, if_pos h3, UInt64.toNat_toUInt32, UInt64.toNat_shiftLeft, hof, toNat_getLow64,
      Nat.mod_mod_of_dvd _ (by decide)]
    rfl
  · rw [if_neg h3, if_neg h3, UInt64.toNat_toUInt32, toNat_getLow64, value_shiftRight, Nat.shiftRight_eq_div_pow]
    rfl

theorem and_not_mantissa {w : UInt32} (h : w.toNat < 2 ^ 23) : w &&& ~~~0x007fffff = 0 := by
  have hlow : w &&& 0x007fffff = w := by
    rw [← UInt32.toNat_inj, UInt32.toNat_and]
    exact (Nat.and_two_pow_sub_one_eq_mod _ 23).trans (Nat.mod_eq_of_lt h)
  have hnone : (0x007fffff : UInt32) &&& ~~~0x007fffff = 0 := rfl
  rw [← hlow, UInt32.and_assoc, hnone, UInt32.and_zero]

theorem compact_assembled {nCompact : UInt32} {nSize : Nat} (fNegative : Bool) (hmantissa : nCompact.toNat < 2 ^ 23)
    (hsize : nSize ≤ 33) :
    ∃ c, (if (nCompact &&& ~~~0x007fffff) ≠ 0 then none
      else if ¬nSize < 256 then none
      else some ((nCompact ||| UInt32.ofNat (nSize <<< 24)) |||
        (if fNegative && ((nCompact ||| UInt32.ofNat (nSize <<< 24)) &&& 0x007fffff) != 0 then 0x00800000 else 0))) =
        some c ∧
      c.toNat = (nCompact.toNat ||| nSize <<< 24) |||
        (if fNegative && ((nCompact.toNat ||| nSize <<< 24) &&& 0x007fffff) != 0 then 0x00800000 else 0) := by
  have hassert := not_not.mpr (and_not_mantissa hmantissa)
  have hexponent : (UInt32.ofNat (nSize <<< 24)).toNat = nSize <<< 24 := by
    rw [UInt32.toNat_ofNat']
    omega
  have hor : (nCompact ||| UInt32.ofNat (nSize <<< 24)).toNat = nCompact.toNat ||| nSize <<< 24 := by
    rw [UInt32.toNat_or, hexponent]
  rw [if_neg hassert, if_neg (not_not.mpr (by omega)), ← hor]
  generalize nCompact ||| UInt32.ofNat (nSize <<< 24) = w
  have hfull : w.toNat &&& 0x007fffff = (w &&& 0x007fffff).toNat := by
    rfl
  refine ⟨_, rfl, ?_⟩
  rw [hfull, ← bne_zero_eq]
  by_cases hneg : (fNegative && (w &&& 0x007fffff) != 0) = true
  · rw [if_pos hneg, if_pos hneg]
    rfl
  · rw [if_neg hneg, if_neg hneg]
    rfl

theorem getCompact_eq_some (x : ArithUint256) (fNegative : Bool) :
    ∃ c, x.getCompact fNegative = some c ∧ c.toNat = Byze.getCompact x.value fNegative := by
  have hword := x.toNat_compactMantissa
  have hlt := topWord_lt x.value
  have hbits : x.bits ≤ 256 := by
    rw [bits_eq_size, Nat.size_le]
    exact x.value_lt
  unfold getCompact Byze.getCompact
  simp only [getCompact_word]
  rw [← bits_eq_size]
  generalize x.compactMantissa ((x.bits + 7) / 8) = word at hword
  rw [← hword] at hlt ⊢
  have hsign : ((word &&& 0x00800000) != 0) = ((word.toNat &&& 0x00800000) != 0) := by
    rw [bne_zero_eq, UInt32.toNat_and]
    rfl
  rw [hsign, and_signBit]
  by_cases hs : (word.toNat / 2 ^ 23 % 2 * 2 ^ 23 != 0) = true
  · have hshift : (word >>> 8).toNat = word.toNat >>> 8 := by
      rfl
    have hmantissa : (word >>> 8).toNat < 2 ^ 23 := by
      omega
    simp only [if_pos hs, ← hshift]
    exact compact_assembled fNegative hmantissa (by omega)
  · have hmantissa : word.toNat < 2 ^ 23 := by
      rw [bne_iff_ne] at hs
      omega
    simp only [if_neg hs]
    exact compact_assembled fNegative hmantissa (by omega)

theorem setCompact_target_value {x : ArithUint256} {c : UInt32} (h : x.getCompact false = some c) :
    (setCompact c).target.value = compactRound x.value ∧ (setCompact c).negative = false ∧
      (setCompact c).overflow = false := by
  obtain ⟨c', hc', hvalue⟩ := x.getCompact_eq_some false
  obtain rfl : c' = c := Option.some.inj (hc'.symm.trans h)
  have hset := setCompact_eq c'
  rw [hvalue, setCompact_getCompact x.value_lt] at hset
  injection hset with ht hn ho
  exact ⟨ht.symm, hn.symm, ho.symm⟩

theorem compact_exponent {x : ArithUint256} {c : UInt32} (h : x.getCompact false = some c) :
    (c >>> 24).toNat = if x.value = 0 then 0 else x.value.size / 8 + 1 := by
  obtain ⟨c', hc', hvalue⟩ := x.getCompact_eq_some false
  obtain rfl : c' = c := Option.some.inj (hc'.symm.trans h)
  have hshift : (c' >>> 24).toNat = c'.toNat / 2 ^ 24 := by
    rw [UInt32.toNat_shiftRight, Nat.shiftRight_eq_div_pow]
    rfl
  rw [hshift, hvalue]
  by_cases h0 : x.value = 0
  · rw [h0]
    rfl
  · have hw := compactWord_lt x.value
    rw [if_neg h0, getCompact_eq h0]
    omega

theorem sub_compactRound_lt (x : Nat) :
    (x - compactRound x) * 256 ^ 3 < 256 ^ (if x = 0 then 0 else x.size / 8 + 1) := by
  by_cases h0 : x = 0
  · subst h0
    decide
  · have hlt : x - compactRound x < 2 ^ compactDrop x.size := by
      have hmod := Nat.mod_add_div x (2 ^ compactDrop x.size)
      have hround : compactRound x = 2 ^ compactDrop x.size * (x / 2 ^ compactDrop x.size) := Nat.mul_comm _ _
      omega
    rw [if_neg h0]
    by_cases h2 : x.size / 8 ≤ 2
    · have hzero : x - compactRound x = 0 := by
        have hdrop : compactDrop x.size = 0 := by
          unfold compactDrop
          omega
        rw [hdrop] at hlt
        exact Nat.lt_one_iff.mp hlt
      rw [hzero]
      exact Nat.pow_pos (by decide)
    · have hsplit : 256 ^ (x.size / 8 + 1) = 2 ^ compactDrop x.size * 256 ^ 3 := by
        rw [show (256 : Nat) = 2 ^ 8 from rfl, ← pow_mul, ← pow_mul, ← pow_add, compactDrop]
        congr 1
        omega
      rw [hsplit]
      exact Nat.mul_lt_mul_of_pos_right hlt (by decide)

theorem getCompact_compactRound (x : Nat) : Byze.getCompact (compactRound x) false = Byze.getCompact x false := by
  by_cases h0 : x = 0
  · subst h0
    rfl
  · have hsize : (compactRound x).size = x.size := size_round compactDrop_le x
    have hr : compactRound x ≠ 0 := by
      intro hzero
      rw [hzero] at hsize
      exact h0 (Nat.size_eq_zero.mp hsize.symm)
    have hword : compactWord (compactRound x) = compactWord x := by
      rw [compactWord, compactWord, hsize]
      by_cases h2 : x.size / 8 ≤ 2
      · have hdrop : compactDrop x.size = 0 := by
          unfold compactDrop
          omega
        have hsame : compactRound x = x := by
          rw [compactRound, LeadingBits.round, hdrop]
          exact clearLow_eq_self (Nat.one_dvd x)
        simp [h2, hsame]
      · simp [h2, compactRound, LeadingBits.round, clearLow]
    rw [getCompact_eq h0, getCompact_eq hr, hsize, hword]

/-- The round trip through the compact form, on limbs. -/
theorem compactCodec (x y : ArithUint256) : ∃ c d, x.getCompact false = some c ∧ y.getCompact false = some d ∧
      (setCompact c).negative = false ∧ (setCompact c).overflow = false ∧
      (setCompact c).target.value ≤ x.value ∧
      (x.value - (setCompact c).target.value) * 256 ^ 3 < 256 ^ (c >>> 24).toNat ∧
      (setCompact c).target.getCompact false = some c ∧
      (x.value ≤ y.value → (setCompact c).target.value ≤ (setCompact d).target.value) := by
  obtain ⟨c, hc, -⟩ := x.getCompact_eq_some false
  obtain ⟨d, hd, -⟩ := y.getCompact_eq_some false
  obtain ⟨hround, hneg, hover⟩ := setCompact_target_value hc
  obtain ⟨hroundy, -, -⟩ := setCompact_target_value hd
  refine ⟨c, d, hc, hd, hneg, hover, ?_, ?_, ?_, ?_⟩
  · rw [hround]
    exact compactRound_le x.value
  · rw [hround, compact_exponent hc]
    exact sub_compactRound_lt x.value
  · obtain ⟨c', hc', hvalue⟩ := (setCompact c).target.getCompact_eq_some false
    obtain ⟨c'', hc'', hvalue'⟩ := x.getCompact_eq_some false
    have hsame : c'' = c := Option.some.inj (hc''.symm.trans hc)
    rw [hround, getCompact_compactRound, ← hvalue', hsame] at hvalue
    rw [hc', UInt32.toNat_inj.mp hvalue]
  · intro hle
    rw [hround, hroundy]
    exact compactRound_mono hle

theorem value_mulUInt32 (a : ArithUint256) (b32 : UInt32) :
    (a.mulUInt32 b32).value = a.value * b32.toNat % 2 ^ 256 := by
  have hmap : a.pn.map (fun x => b32.toUInt64 * x.toUInt64) =
      List.zipWith (mulColumns b32) (List.replicate a.pn.length 0) a.pn := by
    induction a.pn with
    | nil => rfl
    | cons x xs ih => simp [ih, List.replicate_succ, mulColumns]
  have h := value_carry_zipWith (mulColumns_le b32) (List.replicate a.pn.length 0) a.pn
  rw [columns_zipWith (mulColumns_toNat b32) (by simp), value_replicate_zero, Nat.zero_add, List.length_replicate,
    List.take_length, ← hmap, List.length_map, a.length_pn, Nat.mul_comm] at h
  exact h

theorem setCompact_target_lt (nBits : UInt32) : (setCompact nBits).target.value + 1 < 2 ^ 256 := by
  have hlt := (setCompact nBits).target.value_lt
  have htarget : (Byze.setCompact nBits.toNat).target = (setCompact nBits).target.value := by
    rw [setCompact_eq]
  have hne : (setCompact nBits).target.value ≠ 2 ^ 256 - 1 := by
    rw [← htarget, Byze.setCompact]
    by_cases h3 : nBits.toNat >>> 24 ≤ 3
    · have hmask : (nBits.toNat &&& 0x007fffff) >>> (8 * (3 - nBits.toNat >>> 24)) ≤ 0x007fffff := by
        rw [Nat.shiftRight_eq_div_pow]
        exact (Nat.div_le_self _ _).trans Nat.and_le_right
      simp only [if_pos h3]
      omega
    · have hexp : nBits.toNat >>> 24 - 3 = nBits.toNat >>> 24 - 4 + 1 := by omega
      have heven : (nBits.toNat &&& 0x007fffff) <<< (8 * (nBits.toNat >>> 24 - 3)) =
          256 * ((nBits.toNat &&& 0x007fffff) * 2 ^ (8 * (nBits.toNat >>> 24 - 4))) := by
        rw [Nat.shiftLeft_eq, hexp]
        ring
      simp only [if_neg h3]
      omega
  omega

theorem value_getBlockProof {nBits : UInt32} (hneg : (setCompact nBits).negative = false)
    (hover : (setCompact nBits).overflow = false) (ht : (setCompact nBits).target.value ≠ 0) :
    ∃ w, getBlockProof nBits = .ok w ∧ w.value = 2 ^ 256 / ((setCompact nBits).target.value + 1) := by
  have hlt := setCompact_target_lt nBits
  have hone : (ofUInt64 1).value = 1 := value_ofUInt64 1
  have hnext : ((setCompact nBits).target.add (ofUInt64 1)).value = (setCompact nBits).target.value + 1 := by
    rw [value_add, hone, Nat.mod_eq_of_lt hlt]
  have hzero : (setCompact nBits).target.equalTo 0 = false := by
    rw [Bool.eq_false_iff, ne_eq, equalTo_iff]
    exact ht
  have hsucc : (setCompact nBits).target.value + 1 ≠ 0 := Nat.succ_ne_zero _
  rw [← hnext] at hsucc
  obtain ⟨q, hq, hvalue⟩ := value_div (a := (setCompact nBits).target.complement) hsucc
  have hexact : 2 ^ 256 / ((setCompact nBits).target.value + 1) = q.value + 1 := by
    rw [hvalue, hnext, value_complement, Nat.div_eq_sub_div (Nat.succ_pos _) (Nat.le_of_lt hlt), Nat.sub_sub,
      Nat.add_comm 1]
  have hfit : q.value + 1 < 2 ^ 256 := by
    rw [← hexact]
    apply Nat.div_lt_self (Nat.two_pow_pos 256)
    omega
  refine ⟨q.add (ofUInt64 1), ?_, ?_⟩
  · rw [getBlockProof]
    simp only [hneg, hover, hzero, hq]
    rfl
  · rw [value_add, hone, Nat.mod_eq_of_lt hfit, hexact]

theorem getBlockProof_eq (nBits : UInt32) :
    ∃ w, getBlockProof nBits = .ok w ∧ w.value = Byze.getBlockProof nBits.toNat := by
  have hlt := setCompact_target_lt nBits
  rw [Byze.getBlockProof, setCompact_eq]
  by_cases hbad : ((setCompact nBits).negative || (setCompact nBits).overflow || (setCompact nBits).target.equalTo 0) =
      true
  · have hcond : (setCompact nBits).negative = true ∨ (setCompact nBits).overflow = true ∨
        (setCompact nBits).target.value = 0 := by
      rw [Bool.or_eq_true, Bool.or_eq_true, equalTo_iff, or_assoc] at hbad
      exact hbad
    refine ⟨ofUInt64 0, ?_, ?_⟩
    · rw [getBlockProof]
      simp [hbad]
    · simp only [if_pos hcond]
      exact value_ofUInt64 0
  · have hgood := hbad
    rw [Bool.or_eq_true, Bool.or_eq_true, equalTo_iff, not_or, not_or, Bool.not_eq_true, Bool.not_eq_true] at hgood
    obtain ⟨⟨hneg, hover⟩, ht⟩ := hgood
    obtain ⟨w, hw, hvalue⟩ := value_getBlockProof hneg hover ht
    have hcond : ¬((setCompact nBits).negative = true ∨ (setCompact nBits).overflow = true ∨
        (setCompact nBits).target.value = 0) := by
      rw [hneg, hover]
      simpa using ht
    refine ⟨w, hw, ?_⟩
    simp only [if_neg hcond]
    rw [hvalue, Nat.div_eq_sub_div (Nat.succ_pos _) (Nat.le_of_lt hlt), Nat.sub_sub, Nat.add_comm 1]

/-- Products, quotients and work are exact. -/
theorem arith_exact (a b : ArithUint256) (hb : b.value ≠ 0) : (a.mul b).value = a.value * b.value % 2 ^ 256 ∧
      (∀ b32, (a.mulUInt32 b32).value = a.value * b32.toNat % 2 ^ 256) ∧
      (∃ q, a.divide b = .ok q ∧ q.value = a.value / b.value) ∧
      ∀ nBits, (setCompact nBits).negative = false → (setCompact nBits).overflow = false →
        (setCompact nBits).target.value ≠ 0 →
        ∃ w, getBlockProof nBits = .ok w ∧ w.value = 2 ^ 256 / ((setCompact nBits).target.value + 1) ∧
          ∀ nBits', (setCompact nBits').negative = false → (setCompact nBits').overflow = false →
            (setCompact nBits').target.value ≠ 0 →
            (setCompact nBits').target.value ≤ (setCompact nBits).target.value →
            ∃ w', getBlockProof nBits' = .ok w' ∧ w.value ≤ w'.value := by
  refine ⟨value_mul a b, value_mulUInt32 a, value_div hb, ?_⟩
  intro nBits hneg hover ht
  obtain ⟨w, hw, hvalue⟩ := value_getBlockProof hneg hover ht
  refine ⟨w, hw, hvalue, ?_⟩
  intro nBits' hneg' hover' ht' hle
  obtain ⟨w', hw', hvalue'⟩ := value_getBlockProof hneg' hover' ht'
  refine ⟨w', hw', ?_⟩
  rw [hvalue, hvalue']
  exact Nat.div_le_div_left (Nat.succ_le_succ hle) (Nat.succ_pos _)

theorem arith_exact_sample : ((ofUInt64 6).mul (ofUInt64 7)).value = 42 ∧
      ∃ w, getBlockProof 0x1d00ffff = .ok w ∧ w.value = 2 ^ 256 / ((setCompact 0x1d00ffff).target.value + 1) := by
  have h := arith_exact (ofUInt64 6) (ofUInt64 7) (by decide)
  obtain ⟨w, hw, hvalue, -⟩ := h.2.2.2 0x1d00ffff (by decide) (by decide) (by decide +kernel)
  have hproduct : (ofUInt64 6).value * (ofUInt64 7).value % 2 ^ 256 = 42 := by decide
  exact ⟨h.1.trans hproduct, w, hw, hvalue⟩

end ArithUint256

end Byze
