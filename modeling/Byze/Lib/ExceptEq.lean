import Mathlib.Data.List.Forall2

/-! Computations that may stop with an error: equations, and what holds however
such a computation ends. -/

namespace ExceptEq
variable {ε α β : Type}

@[simp] theorem pure_eq_ok (a : α) : (pure a : Except ε α) = .ok a := rfl
@[simp] theorem throw_eq_error (e : ε) : (throw e : Except ε α) = .error e := rfl
@[simp] theorem ok_bind (a : α) (f : α → Except ε β) : ((.ok a : Except ε α) >>= f) = f a := rfl
@[simp] theorem error_bind (e : ε) (f : α → Except ε β) : ((.error e : Except ε α) >>= f) = .error e := rfl

variable {f : α → Except ε β}

theorem bind_eq_ok_iff {x : Except ε α} {b : β} : (x >>= f) = .ok b ↔ ∃ a, x = .ok a ∧ f a = .ok b := by
  cases x with
  | error e => simp
  | ok a => simp

theorem unit_bind_eq_ok_iff {x : Except ε Unit} {f : Unit → Except ε β} {b : β} :
    (x >>= f) = .ok b ↔ x = .ok () ∧ f () = .ok b := by
  rw [bind_eq_ok_iff]
  constructor
  · rintro ⟨⟨⟩, hx, hf⟩
    exact ⟨hx, hf⟩
  · rintro ⟨hx, hf⟩
    exact ⟨(), hx, hf⟩

theorem ite_error_eq_ok_iff {p : Prop} [Decidable p] {e : ε} {x : Except ε β} {b : β} :
    (if p then .error e else x) = .ok b ↔ ¬ p ∧ x = .ok b := by
  by_cases hp : p
  · simp [hp]
  · simp [hp]

variable {l : List α}

theorem mapM_ok {P : β → Prop} (hf : ∀ a ∈ l, ∃ b, f a = .ok b ∧ P b) :
    ∃ bs, l.mapM f = .ok bs ∧ bs.length = l.length ∧ ∀ b ∈ bs, P b := by
  induction l with
  | nil => exact ⟨[], rfl, rfl, by simp⟩
  | cons a l ih =>
    obtain ⟨b, hb, hP⟩ := hf a List.mem_cons_self
    obtain ⟨bs, hbs, hlength, hall⟩ := ih fun c hc => hf c (List.mem_cons_of_mem _ hc)
    refine ⟨b :: bs, ?_, by simp [hlength], ?_⟩
    · rw [List.mapM_cons, hb, hbs]
      rfl
    · intro c hc
      rcases List.mem_cons.mp hc with rfl | hc
      · exact hP
      · exact hall c hc

theorem forall₂_of_mapM {bs : List β} (h : l.mapM f = .ok bs) :
    List.Forall₂ (fun a b => f a = .ok b) l bs := by
  induction l generalizing bs with
  | nil =>
    cases h
    exact .nil
  | cons a l ih =>
    rw [List.mapM_cons, bind_eq_ok_iff] at h
    obtain ⟨b, hb, h⟩ := h
    obtain ⟨rest, hrest, h⟩ := bind_eq_ok_iff.mp h
    cases h
    exact .cons hb (ih hrest)

theorem forall_of_forM {f : α → Except ε PUnit} (h : l.forM f = .ok ()) : ∀ a ∈ l, f a = .ok () := by
  induction l with
  | nil => simp
  | cons a l ih =>
    obtain ⟨u, ha, hl⟩ := bind_eq_ok_iff.mp h
    intro a' hmem
    rcases List.mem_cons.mp hmem with rfl | hmem
    · exact ha
    · exact ih hl a' hmem

/-- The computation ends with a result of which `P` holds, or with an error of
which `E` holds. -/
def Ends (E : ε → Prop) (P : α → Prop) : Except ε α → Prop
  | .ok a => P a
  | .error e => E e

section
variable {E : ε → Prop} {P : α → Prop} {Q : β → Prop} {x y : Except ε α}

theorem Ends.bind {f : α → Except ε β} (hx : Ends E P x) (hf : ∀ a, P a → Ends E Q (f a)) :
    Ends E Q (x >>= f) := by
  cases x with
  | ok a => exact hf a hx
  | error e => exact hx

theorem Ends.ite {p : Prop} [Decidable p] (hx : p → Ends E P x) (hy : ¬ p → Ends E P y) :
    Ends E P (if p then x else y) := by
  by_cases hp : p
  · rw [if_pos hp]
    exact hx hp
  · rw [if_neg hp]
    exact hy hp

theorem Ends.mono {P' : α → Prop} (hx : Ends E P x) (hP : ∀ a, P a → P' a) : Ends E P' x := by
  cases x with
  | ok a => exact hP a hx
  | error e => exact hx

theorem Ends.mapM {f : α → Except ε β} {l : List α} (hf : ∀ a ∈ l, Ends E (fun _ => True) (f a)) :
    Ends E (fun _ => True) (l.mapM f) := by
  induction l with
  | nil => exact trivial
  | cons a l ih =>
    rw [List.mapM_cons]
    refine (hf a List.mem_cons_self).bind fun _ _ => ?_
    exact (ih fun b hb => hf b (List.mem_cons_of_mem _ hb)).bind fun _ _ => trivial

theorem Ends.forM {f : α → Except ε PUnit} {l : List α} (hf : ∀ a ∈ l, Ends E (fun _ => True) (f a))
    : Ends E (fun _ => True) (l.forM f) := by
  induction l with
  | nil => exact trivial
  | cons a l ih =>
    refine (hf a List.mem_cons_self).bind fun _ _ => ?_
    exact ih fun b hb => hf b (List.mem_cons_of_mem _ hb)
end

end ExceptEq
