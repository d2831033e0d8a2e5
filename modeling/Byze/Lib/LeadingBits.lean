import Mathlib.Data.Nat.Size
import Mathlib.Tactic

/-! Rounding a natural number down to its leading bits. The number of dropped
bits depends on the bit length only, which is what makes rounding monotone. -/

namespace LeadingBits

def clearLow (e x : Nat) : Nat := x / 2 ^ e * 2 ^ e

/-- Round down, dropping `drop b` bits of a `b`-bit number. -/
def round (drop : Nat → Nat) (x : Nat) : Nat := clearLow (drop x.size) x

theorem clearLow_le (e x : Nat) : clearLow e x ≤ x := Nat.div_mul_le_self x (2 ^ e)

theorem clearLow_mono (e : Nat) {x y : Nat} (h : x ≤ y) : clearLow e x ≤ clearLow e y :=
  Nat.mul_le_mul_right _ (Nat.div_le_div_right h)

theorem clearLow_eq_self {e x : Nat} (h : 2 ^ e ∣ x) : clearLow e x = x :=
  Nat.div_mul_cancel h

theorem clearLow_clearLow (e x : Nat) : clearLow e (clearLow e x) = clearLow e x :=
  clearLow_eq_self (Nat.dvd_mul_left _ _)

theorem two_pow_le_clearLow {e k x : Nat} (he : e ≤ k) (hx : 2 ^ k ≤ x) : 2 ^ k ≤ clearLow e x := by
  have hk : clearLow e (2 ^ k) = 2 ^ k := clearLow_eq_self (Nat.pow_dvd_pow 2 he)
  calc 2 ^ k = clearLow e (2 ^ k) := hk.symm
    _ ≤ clearLow e x := clearLow_mono e hx

theorem round_le (drop : Nat → Nat) (x : Nat) : round drop x ≤ x := clearLow_le _ _

variable {drop : Nat → Nat}

theorem round_mono (hd : ∀ b, drop (b + 1) ≤ b) {x y : Nat} (h : x ≤ y) : round drop x ≤ round drop y := by
  rcases Nat.eq_or_lt_of_le (Nat.size_le_size h) with hs | hs
  · unfold round
    rw [hs]
    exact clearLow_mono _ h
  · obtain ⟨k, hk⟩ : ∃ k, y.size = k + 1 := ⟨y.size - 1, by omega⟩
    have hxk : x < 2 ^ k := Nat.size_le.mp (by omega)
    have hky : 2 ^ k ≤ y := Nat.lt_size.mp (by omega)
    calc round drop x ≤ x := round_le drop x
      _ ≤ 2 ^ k := hxk.le
      _ ≤ round drop y := by
        exact two_pow_le_clearLow (hk ▸ hd k) hky

theorem size_round (hd : ∀ b, drop (b + 1) ≤ b) (x : Nat) : (round drop x).size = x.size := by
  apply le_antisymm (Nat.size_le_size (round_le drop x))
  rcases Nat.eq_zero_or_pos x.size with hz | hp
  · omega
  · obtain ⟨k, hk⟩ : ∃ k, x.size = k + 1 := ⟨x.size - 1, by omega⟩
    have hx : 2 ^ k ≤ x := Nat.lt_size.mp (by omega)
    rw [hk]
    exact Nat.lt_size.mpr (two_pow_le_clearLow (hk ▸ hd k) hx)

theorem round_round (hd : ∀ b, drop (b + 1) ≤ b) (x : Nat) : round drop (round drop x) = round drop x := by
  conv_lhs => rw [round, size_round hd]
  exact clearLow_clearLow _ _

end LeadingBits
