import Mathlib.Order.Lattice

/-! The element of a list that comes first in an order that is computed. -/

namespace Best
variable {α β : Type*}

def best (before : α → α → Bool) : List α → Option α
  | [] => none
  | a :: rest =>
    match best before rest with
    | none => some a
    | some b => if before b a then some b else some a

variable {before : α → α → Bool}

theorem best_eq_none {l : List α} : best before l = none ↔ l = [] := by
  cases l with
  | nil => simp [best]
  | cons a rest =>
    rw [best]
    cases best before rest with
    | none => simp
    | some b => by_cases h : before b a <;> simp [h]

theorem best_le [LinearOrder β] (rank : α → β) {l : List α}
    (hbefore : ∀ a ∈ l, ∀ b ∈ l, before a b = true ↔ rank a < rank b) {b : α} (h : best before l = some b) :
    b ∈ l ∧ ∀ a ∈ l, rank b ≤ rank a := by
  induction l generalizing b with
  | nil => cases h
  | cons a rest ih =>
    have hrest : ∀ x ∈ rest, ∀ y ∈ rest, before x y = true ↔ rank x < rank y := fun x hx y hy =>
      hbefore x (List.mem_cons_of_mem a hx) y (List.mem_cons_of_mem a hy)
    rw [best] at h
    cases hbest : best before rest with
    | none =>
      obtain rfl := best_eq_none.mp hbest
      obtain rfl := Option.some.inj h
      exact ⟨List.mem_cons_self, fun x hx => by rw [List.mem_singleton.mp hx]⟩
    | some c =>
      obtain ⟨hmem, hle⟩ := ih hrest hbest
      have hiff := hbefore c (List.mem_cons_of_mem a hmem) a List.mem_cons_self
      rw [hbest] at h
      by_cases hc : before c a = true
      · simp only [hc, if_true, Option.some.injEq] at h
        subst h
        exact ⟨List.mem_cons_of_mem a hmem, List.forall_mem_cons.mpr ⟨(hiff.mp hc).le, hle⟩⟩
      · simp only [hc, Bool.false_eq_true, if_false, Option.some.injEq] at h
        subst h
        have hac := not_lt.mp (mt hiff.mpr hc)
        exact ⟨List.mem_cons_self, List.forall_mem_cons.mpr ⟨le_rfl, fun x hx => hac.trans (hle x hx)⟩⟩

end Best
