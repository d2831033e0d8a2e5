import Mathlib.Order.Basic

/-! Elements with at most one predecessor each and a height: what is reached by
going back, and where two of them meet. -/

namespace Ancestry
variable {α : Type} {prev : α → Option α} {height : α → Nat}

/-- A predecessor is one lower, and only elements at height 0 have none. -/
structure Ranked (prev : α → Option α) (height : α → Nat) : Prop where
  height_prev : ∀ {b p : α}, prev b = some p → height b = height p + 1
  exists_prev : ∀ {b : α}, height b ≠ 0 → ∃ p, prev b = some p

def back (prev : α → Option α) : Nat → α → Option α
  | 0, b => some b
  | n + 1, b => (prev b).bind (back prev n)

def IsAncestor (prev : α → Option α) (a b : α) : Prop := ∃ n, back prev n b = some a

def Common (prev : α → Option α) (a b c : α) : Prop := IsAncestor prev c a ∧ IsAncestor prev c b

/-- The highest common ancestor. -/
def IsMeet (prev : α → Option α) (height : α → Nat) (a b c : α) : Prop :=
  Common prev a b c ∧ ∀ d, Common prev a b d → height d ≤ height c

theorem back_add (m n : Nat) (b : α) : back prev (m + n) b = (back prev m b).bind (back prev n) := by
  induction m generalizing b with
  | zero => simp [back]
  | succ m ih =>
    rw [Nat.succ_add, back, back, Option.bind_assoc]
    congr 1
    funext p
    exact ih p

theorem back_one (prev : α → Option α) (b : α) : back prev 1 b = prev b := by
  cases hb : prev b <;> simp [back, hb]

theorem IsAncestor.refl (b : α) : IsAncestor prev b b := ⟨0, rfl⟩

theorem IsAncestor.of_prev {b p : α} (h : prev b = some p) : IsAncestor prev p b :=
  ⟨1, by simp [back, h]⟩

theorem IsAncestor.trans {a b c : α} (h : IsAncestor prev a b) (h' : IsAncestor prev b c) :
    IsAncestor prev a c := by
  obtain ⟨m, hm⟩ := h
  obtain ⟨n, hn⟩ := h'
  exact ⟨n + m, by simp [back_add, hn, hm]⟩

namespace Ranked

section
variable (h : Ranked prev height)
include h

theorem height_back {n : Nat} {a b : α} (hn : back prev n b = some a) : height b = height a + n := by
  induction n generalizing b with
  | zero =>
    obtain rfl := Option.some.inj hn
    rfl
  | succ n ih =>
    obtain ⟨p, hp, hn⟩ := Option.bind_eq_some_iff.mp hn
    have hrank := h.height_prev hp
    have hi := ih hn
    omega

theorem exists_back {n : Nat} {b : α} (hn : n ≤ height b) : ∃ a, back prev n b = some a := by
  induction n generalizing b with
  | zero => exact ⟨b, rfl⟩
  | succ n ih =>
    obtain ⟨p, hp⟩ := h.exists_prev (show height b ≠ 0 by omega)
    have hrank := h.height_prev hp
    obtain ⟨a, ha⟩ := ih (show n ≤ height p by omega)
    exact ⟨a, by simp [back, hp, ha]⟩

theorem height_le {a b : α} (ha : IsAncestor prev a b) : height a ≤ height b := by
  obtain ⟨n, hn⟩ := ha
  have hrank := h.height_back hn
  omega

theorem back_of_isAncestor {a b : α} (ha : IsAncestor prev a b) :
    back prev (height b - height a) b = some a := by
  obtain ⟨n, hn⟩ := ha
  have hrank := h.height_back hn
  rwa [show height b - height a = n by omega]

theorem isAncestor_of_le {a b c : α} (ha : IsAncestor prev a c) (hb : IsAncestor prev b c)
    (hle : height a ≤ height b) : IsAncestor prev a b := by
  have hback := h.back_of_isAncestor ha
  have hbc := h.height_le hb
  rw [show height c - height a = height c - height b + (height b - height a) by omega, back_add,
    h.back_of_isAncestor hb] at hback
  exact ⟨_, hback⟩

theorem eq_of_height {a b c : α} (ha : IsAncestor prev a c) (hb : IsAncestor prev b c)
    (heq : height a = height b) : a = b := by
  have hab := h.back_of_isAncestor (h.isAncestor_of_le ha hb (Nat.le_of_eq heq))
  rw [heq, Nat.sub_self] at hab
  exact (Option.some.inj hab).symm

theorem common_back {x y x' y' : α} (hx : IsAncestor prev x' x) (hy : IsAncestor prev y' y)
    (hlow : ∀ c, Common prev x y c → height c ≤ height x' ∧ height c ≤ height y') (c : α) :
    Common prev x y c ↔ Common prev x' y' c := by
  constructor
  · intro hc
    have hle := hlow c hc
    exact ⟨h.isAncestor_of_le hc.1 hx hle.1, h.isAncestor_of_le hc.2 hy hle.2⟩
  · intro hc
    exact ⟨hc.1.trans hx, hc.2.trans hy⟩

theorem common_lt_of_ne {x y x' y' c : α} (hx : IsAncestor prev x' x) (hy : IsAncestor prev y' y)
    (heq : height x' = height y') (hne : x' ≠ y') (hc : Common prev x y c) :
    height c < height x' := by
  by_contra hge
  have hx' := h.isAncestor_of_le hx hc.1 (Nat.le_of_not_lt hge)
  have hy' := h.isAncestor_of_le hy hc.2 (heq ▸ Nat.le_of_not_lt hge)
  exact hne (h.eq_of_height hx' hy' heq)
end

end Ranked

theorem IsMeet.self {b : α} (h : Ranked prev height) : IsMeet prev height b b b :=
  ⟨⟨.refl b, .refl b⟩, fun _ hd => h.height_le hd.1⟩

theorem IsMeet.congr {x y x' y' c : α} (hsame : ∀ d, Common prev x y d ↔ Common prev x' y' d)
    (h : IsMeet prev height x' y' c) : IsMeet prev height x y c :=
  ⟨(hsame c).mpr h.1, fun d hd => h.2 d ((hsame d).mp hd)⟩

end Ancestry
