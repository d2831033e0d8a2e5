import Mathlib.Data.Nat.Digits.Defs
import Mathlib.Data.Nat.Digits.Lemmas

/-! A number held as digits in a buffer of fixed size, lowest digit first, that is
multiplied and added to in place. -/

namespace Radix

def padded (b size n : Nat) : List Nat :=
  b.digits n ++ List.replicate (size - (b.digits n).length) 0

/-- Multiply by `m` and add the carry, as long as there is one or some of the first
`len` digits are left: the new digits, the last carry and how many were changed. -/
def mulAdd (b m : Nat) : Nat → Nat → List Nat → List Nat × Nat × Nat
  | carry, _, [] => ([], carry, 0)
  | carry, len, x :: xs =>
    if carry ≠ 0 ∨ 0 < len then
      let rest := mulAdd b m ((carry + m * x) / b) (len - 1) xs
      ((carry + m * x) % b :: rest.1, rest.2.1, rest.2.2 + 1)
    else (x :: xs, carry, 0)

variable {b m : Nat}

theorem padded_succ (hb : 1 < b) (size n : Nat) : padded b (size + 1) n = n % b :: padded b size (n / b) := by
  rcases Nat.eq_zero_or_pos n with rfl | hpos
  · simp [padded, List.replicate_succ]
  · rw [padded, padded, Nat.digits_def' hb hpos, List.length_cons, List.cons_append, Nat.add_sub_add_right]

theorem length_digits_div (hb : 1 < b) (n : Nat) : (b.digits (n / b)).length = (b.digits n).length - 1 := by
  rcases Nat.eq_zero_or_pos n with rfl | hpos
  · simp
  · rw [Nat.digits_def' hb hpos, List.length_cons, Nat.add_sub_cancel]

theorem length_digits_pos (hb : 1 < b) {n : Nat} (hn : n ≠ 0) : 0 < (b.digits n).length := by
  rw [Nat.digits_def' hb (Nat.pos_of_ne_zero hn)]
  exact Nat.succ_pos _

theorem mulAdd_padded (hb : 1 < b) (hm : 0 < m) {size n carry : Nat} (hfit : m * n + carry < b ^ size) :
    mulAdd b m carry (b.digits n).length (padded b size n) =
      (padded b size (m * n + carry), 0, (b.digits (m * n + carry)).length) := by
  induction size generalizing n carry with
  | zero =>
    have hzero : m * n + carry = 0 := Nat.lt_one_iff.mp hfit
    have hn : n = 0 := by
      rcases Nat.mul_eq_zero.mp (Nat.eq_zero_of_add_eq_zero_right hzero) with hm0 | hn
      · omega
      · exact hn
    have hcarry : carry = 0 := by omega
    subst hn hcarry
    simp [padded, mulAdd]
  | succ size ih =>
    by_cases hnone : carry = 0 ∧ n = 0
    · obtain ⟨rfl, rfl⟩ := hnone
      rw [padded_succ hb, mulAdd]
      simp [padded_succ hb]
    · have hgo : carry ≠ 0 ∨ 0 < (b.digits n).length := by
        by_cases hcarry : carry = 0
        · exact Or.inr (length_digits_pos hb fun hn => hnone ⟨hcarry, hn⟩)
        · exact Or.inl hcarry
      have hne : m * n + carry ≠ 0 := by
        intro hzero
        have hn : m * n = 0 := by omega
        rcases Nat.mul_eq_zero.mp hn with hm0 | hn
        · omega
        · exact hnone ⟨by omega, hn⟩
      have hsplit : m * n + carry = b * (m * (n / b)) + (carry + m * (n % b)) := by
        conv_lhs => rw [← Nat.div_add_mod n b]
        ring
      have hdigit : (carry + m * (n % b)) % b = (m * n + carry) % b := by
        simp [hsplit]
      have hrest : m * (n / b) + (carry + m * (n % b)) / b = (m * n + carry) / b := by
        rw [hsplit, Nat.mul_add_div (by omega)]
      have hlow : m * (n / b) + (carry + m * (n % b)) / b < b ^ size := by
        rw [hrest]
        apply Nat.div_lt_of_lt_mul
        rwa [← pow_succ']
      have hpass := ih hlow
      rw [hrest, length_digits_div hb n] at hpass
      have hcount := length_digits_div hb (m * n + carry)
      have hpos := length_digits_pos hb hne
      rw [padded_succ hb size n, mulAdd, if_pos hgo]
      simp only [hpass]
      rw [hdigit, padded_succ hb size (m * n + carry), hcount, Nat.sub_add_cancel hpos]

theorem take_padded (b size n : Nat) : (padded b size n).take (b.digits n).length = b.digits n :=
  List.take_left

def read (b n : Nat) (digits : List Nat) : Nat := digits.foldl (fun n d => b * n + d) n

theorem read_zero_eq_ofDigits (b : Nat) (digits : List Nat) :
    read b 0 digits = Nat.ofDigits b digits.reverse := by
  rw [read, Nat.ofDigits_eq_foldr, List.foldr_reverse]
  congr 1
  funext n d
  exact Nat.add_comm _ _

theorem read_digits_reverse (b n : Nat) : read b 0 (b.digits n).reverse = n := by
  rw [read_zero_eq_ofDigits, List.reverse_reverse, Nat.ofDigits_digits]

theorem digits_read (hb : 1 < b) {digits : List Nat} (hlt : ∀ d ∈ digits, d < b)
    (hhead : ∀ d ∈ digits.head?, d ≠ 0) : b.digits (read b 0 digits) = digits.reverse := by
  rw [read_zero_eq_ofDigits]
  apply Nat.digits_ofDigits b hb
  · intro d hd
    exact hlt d (List.mem_reverse.mp hd)
  · intro hne
    rw [List.getLast_reverse]
    apply hhead
    exact List.head_mem_head? _

theorem le_read (hb : 0 < b) (n : Nat) (digits : List Nat) : n ≤ read b n digits := by
  induction digits generalizing n with
  | nil => exact Nat.le_refl n
  | cons d digits ih =>
    have hstep : n ≤ b * n + d := (Nat.le_mul_of_pos_left n hb).trans (Nat.le_add_right _ _)
    exact hstep.trans (ih _)

end Radix
