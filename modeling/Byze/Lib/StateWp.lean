import Mathlib.Logic.Relation

/-! Programs that change a state and may stop early, what holds however such a
program ends, the relations that all of its runs keep to, and the changes of the
state that it does not see. -/

namespace StateWp

/-- Stopping early keeps the state reached so far. -/
abbrev Prog (σ ε α : Type) := ExceptT ε (StateM σ) α

variable {σ ε α β : Type}

/-- How a run of `c` from `s` ends: with a result of which `Q` holds, or early
with `E`. -/
def wp (c : Prog σ ε α) (Q : α → σ → Prop) (E : ε → σ → Prop) (s : σ) : Prop :=
  match c.run s with
  | (.ok a, t) => Q a t
  | (.error e, t) => E e t

section
variable {Q Q' : α → σ → Prop} {E E' : ε → σ → Prop} {s : σ} {c : Prog σ ε α}

@[simp] theorem wp_pure (a : α) : wp (pure a : Prog σ ε α) Q E s ↔ Q a s := Iff.rfl
@[simp] theorem wp_throw (e : ε) : wp (throw e : Prog σ ε α) Q E s ↔ E e s := Iff.rfl
@[simp] theorem wp_get {Q : σ → σ → Prop} : wp (get : Prog σ ε σ) Q E s ↔ Q s s := Iff.rfl

@[simp] theorem wp_modify {Q : PUnit → σ → Prop} (f : σ → σ) :
    wp (modify f : Prog σ ε PUnit) Q E s ↔ Q ⟨⟩ (f s) := Iff.rfl

@[simp] theorem wp_bind {f : α → Prog σ ε β} {Q : β → σ → Prop} :
    wp (c >>= f) Q E s ↔ wp c (fun a t => wp (f a) Q E t) E s := by
  have hrun : (c >>= f).run s = ExceptT.bindCont f (c.run s).1 (c.run s).2 := rfl
  simp only [wp, hrun]
  rcases c.run s with ⟨_ | _, _⟩ <;> rfl

@[simp] theorem wp_map {f : α → β} {Q : β → σ → Prop} :
    wp (f <$> c) Q E s ↔ wp c (fun a t => Q (f a) t) E s := by
  rw [show f <$> c = c >>= fun a => pure (f a) from rfl, wp_bind]
  rfl

theorem wp_ite {p : Prop} {_ : Decidable p} {d : Prog σ ε α} (hc : p → wp c Q E s)
    (hd : ¬ p → wp d Q E s) : wp (if p then c else d) Q E s := by
  by_cases hp : p
  · rw [if_pos hp]
    exact hc hp
  · rw [if_neg hp]
    exact hd hp

theorem wp_mono (h : wp c Q E s) (hQ : ∀ a t, Q a t → Q' a t) (hE : ∀ e t, E e t → E' e t) :
    wp c Q' E' s := by
  simp only [wp] at h ⊢
  rcases hc : c.run s with ⟨_ | _, _⟩ <;> rw [hc] at h
  · exact hE _ _ h
  · exact hQ _ _ h

theorem wp.imp (h : wp c Q E s) (hQ : ∀ a t, Q a t → Q' a t) : wp c Q' E s :=
  wp_mono h hQ fun _ _ he => he

theorem wp.seq {f : α → Prog σ ε β} {Q' : β → σ → Prop} (h : wp c Q E s)
    (hf : ∀ a t, Q a t → wp (f a) Q' E t) : wp (c >>= f) Q' E s := wp_bind.mpr (h.imp hf)

theorem wp_trivial (hQ : ∀ a t, Q a t) (hE : ∀ e t, E e t) : wp c Q E s := by
  simp only [wp]
  rcases c.run s with ⟨_ | _, _⟩
  · exact hE _ _
  · exact hQ _ _

theorem wp_and {Q₁ Q₂ : α → σ → Prop} {E₁ E₂ : ε → σ → Prop} (h₁ : wp c Q₁ E₁ s) (h₂ : wp c Q₂ E₂ s) :
    wp c (fun a t => Q₁ a t ∧ Q₂ a t) (fun e t => E₁ e t ∧ E₂ e t) s := by
  simp only [wp] at h₁ h₂ ⊢
  rcases hc : c.run s with ⟨_ | _, _⟩ <;> rw [hc] at h₁ h₂
  · exact ⟨h₁, h₂⟩
  · exact ⟨h₁, h₂⟩

theorem wp_false (h : wp c (fun _ _ => False) (fun _ _ => False) s) : False := by
  simp only [wp] at h
  rcases hc : c.run s with ⟨_ | _, _⟩ <;> rw [hc] at h <;> exact h

theorem wp.exists_of_fst_eq_ok {a : α} (h : wp c Q E s) (ha : (c.run s).1 = .ok a) : ∃ t, Q a t := by
  simp only [wp] at h
  rcases hc : c.run s with ⟨_ | b, t⟩ <;> rw [hc] at h ha
  · cases ha
  · obtain rfl := Except.ok.inj ha
    exact ⟨t, h⟩

theorem wp.of_run_eq {a : α} {t : σ} (h : wp c Q E s) (hrun : c.run s = (.ok a, t)) : Q a t := by
  simp only [wp, hrun] at h
  exact h

theorem wp.exists_run_eq (h : wp c Q (fun _ _ => False) s) : ∃ a t, c.run s = (.ok a, t) ∧ Q a t := by
  simp only [wp] at h
  rcases hc : c.run s with ⟨_ | a, t⟩ <;> rw [hc] at h
  · exact h.elim
  · exact ⟨a, t, rfl, h⟩
end

/-- Every run of `c` goes along `R`, also one that stops early. -/
def Along (R : σ → σ → Prop) (c : Prog σ ε α) : Prop :=
  ∀ s, wp c (fun _ t => R s t) (fun _ t => R s t) s

namespace Along
variable {R R' : σ → σ → Prop} {c : Prog σ ε α} {d : Prog σ ε α}

theorem mono (h : Along R c) (hR : ∀ s t, R s t → R' s t) : Along R' c := by
  intro s
  exact wp_mono (h s) (fun _ _ => hR s _) (fun _ _ => hR s _)

protected theorem pure [Std.Refl R] (a : α) : Along R (pure a : Prog σ ε α) :=
  fun s => refl_of R s

protected theorem throw [Std.Refl R] (e : ε) : Along R (throw e : Prog σ ε α) :=
  fun s => refl_of R s

protected theorem get [Std.Refl R] : Along R (get : Prog σ ε σ) := fun s => refl_of R s

theorem modify {f : σ → σ} (h : ∀ s, R s (f s)) : Along R (modify f : Prog σ ε PUnit) := fun s => h s

variable {f : α → Prog σ ε β}

theorem bind_comp {S T : σ → σ → Prop} (hc : Along R c) (hf : ∀ a, Along S (f a))
    (hstop : ∀ s t, R s t → T s t) (hgo : ∀ s t u, R s t → S t u → T s u) : Along T (c >>= f) := by
  intro s
  rw [wp_bind]
  refine wp_mono (hc s) ?_ fun _ t => hstop s t
  intro a t hst
  exact wp_mono (hf a t) (fun _ u => hgo s t u hst) fun _ u => hgo s t u hst

theorem bind [IsTrans σ R] (hc : Along R c) (hf : ∀ a, Along R (f a)) : Along R (c >>= f) :=
  hc.bind_comp hf (fun _ _ h => h) fun _ _ _ h h' => trans_of R h h'

theorem ite {p : Prop} [Decidable p] (hc : Along R c) (hd : Along R d) : Along R (if p then c else d) := by
  intro s
  exact wp_ite (fun _ => hc s) (fun _ => hd s)

theorem wp_bind_of {Q : β → σ → Prop} {E : ε → σ → Prop} {s : σ} (hc : Along R c)
    (hf : ∀ a t, R s t → wp (f a) Q E t) (hE : ∀ e t, R s t → E e t) :
    wp (c >>= f) Q E s := by
  rw [wp_bind]
  exact wp_mono (hc s) (hf · ·) (hE · ·)

theorem wp_of {Q : α → σ → Prop} {E : ε → σ → Prop} {s : σ} (hc : Along R c)
    (hQ : ∀ a t, R s t → Q a t) (hE : ∀ e t, R s t → E e t) : wp c Q E s :=
  wp_mono (hc s) (hQ · ·) (hE · ·)

protected theorem and (h : Along R c) (h' : Along R' c) : Along (fun s t => R s t ∧ R' s t) c :=
  fun s => wp_and (h s) (h' s)

theorem run_eq {s t : σ} {a : α} (h : Along R c) (hrun : c.run s = (.ok a, t)) : R s t :=
  (h s).of_run_eq hrun

end Along

/-- The change `f` of the state is not seen by `c`. -/
def Blind (f : σ → σ) (c : Prog σ ε α) : Prop :=
  ∀ s, c.run (f s) = ((c.run s).1, f (c.run s).2)

/-- Where `c` has a result from `s`, it has one from `f s` too, and `Q` holds of
the two results and the state that the second one leaves. -/
def Follows (f : σ → σ) (c : Prog σ ε α) (Q : α → α → σ → Prop) (s : σ) : Prop :=
  ∀ a t, c.run s = (.ok a, t) → wp c (Q a) (fun _ _ => False) (f s)

section
variable {f : σ → σ} {c d : Prog σ ε α} {k : α → Prog σ ε β} {s : σ}

theorem run_bind (c : Prog σ ε α) (k : α → Prog σ ε β) (s : σ) :
    (c >>= k).run s = ExceptT.bindCont k (c.run s).1 (c.run s).2 := rfl

theorem run_bind_eq_ok {b : β} {u : σ} (h : (c >>= k).run s = (.ok b, u)) :
    ∃ a t, c.run s = (.ok a, t) ∧ (k a).run t = (.ok b, u) := by
  rw [run_bind] at h
  rcases hc : c.run s with ⟨_ | a, t⟩
  · rw [hc] at h
    cases h
  · rw [hc] at h
    exact ⟨a, t, rfl, h⟩

theorem wp_of_run_eq {Q : α → σ → Prop} {E : ε → σ → Prop} {a : α} {t : σ} (h : c.run s = (.ok a, t))
    (hQ : Q a t) : wp c Q E s := by
  simp only [wp, h]
  exact hQ

namespace Blind

protected theorem pure (a : α) : Blind f (pure a : Prog σ ε α) := fun _ => rfl

protected theorem throw (e : ε) : Blind f (throw e : Prog σ ε α) := fun _ => rfl

theorem modify {g : σ → σ} (h : ∀ s, g (f s) = f (g s)) : Blind f (modify g : Prog σ ε PUnit) := by
  intro s
  exact congrArg (Prod.mk (Except.ok PUnit.unit)) (h s)

theorem bind (hc : Blind f c) (hk : ∀ a, Blind f (k a)) : Blind f (c >>= k) := by
  intro s
  rw [run_bind, run_bind, hc s]
  rcases c.run s with ⟨_ | a, t⟩
  · rfl
  · exact hk a t

theorem get_bind {k : σ → Prog σ ε β} (hsame : ∀ s, k (f s) = k s) (hk : ∀ s, Blind f (k s)) :
    Blind f (get >>= k) := by
  intro s
  have hrun : ∀ s, (get >>= k : Prog σ ε β).run s = (k s).run s := fun _ => rfl
  rw [hrun, hsame]
  exact hk s s

theorem ite {p : Prop} [Decidable p] (hc : Blind f c) (hd : Blind f d) : Blind f (if p then c else d) := by
  by_cases hp : p
  · rwa [if_pos hp]
  · rwa [if_neg hp]

theorem run_eq {a : α} {t : σ} (hc : Blind f c) (h : c.run s = (.ok a, t)) : c.run (f s) = (.ok a, f t) := by
  rw [hc s, h]

end Blind

namespace Follows
variable {Q : β → β → σ → Prop} {d' : Prog σ ε β}

theorem of_wp (h : ∀ b, wp d' (Q b) (fun _ _ => False) (f s)) : Follows f d' Q s := fun b _ _ => h b

theorem ite {p : Prop} [Decidable p] {d'' : Prog σ ε β} (hc : p → Follows f d' Q s)
    (hd : ¬ p → Follows f d'' Q s) : Follows f (if p then d' else d'') Q s := by
  by_cases hp : p
  · rw [if_pos hp]
    exact hc hp
  · rw [if_neg hp]
    exact hd hp

theorem blind_bind (hc : Blind f c) (hk : ∀ a t, c.run s = (.ok a, t) → Follows f (k a) Q t) :
    Follows f (c >>= k) Q s := by
  intro b u h
  obtain ⟨a, t, hrun, hend⟩ := run_bind_eq_ok h
  rw [wp_bind]
  exact wp_of_run_eq (hc.run_eq hrun) (hk a t hrun b u hend)

theorem bind {P : α → α → σ → Prop} (hc : Follows f c P s)
    (hk : ∀ a a' t t' b u, P a a' t' → (k a).run t = (.ok b, u) →
      wp (k a') (Q b) (fun _ _ => False) t') : Follows f (c >>= k) Q s := by
  intro b u h
  obtain ⟨a, t, hrun, hend⟩ := run_bind_eq_ok h
  exact wp.seq (hc a t hrun) (fun a' t' hP => hk a a' t t' b u hP hend)

theorem get_bind {k : σ → Prog σ ε β} (hsame : k (f s) = k s) (hk : Follows f (k s) Q s) :
    Follows f (get >>= k) Q s := by
  intro b u h
  rw [wp_bind, wp_get, hsame]
  exact hk b u h

end Follows
end

end StateWp
