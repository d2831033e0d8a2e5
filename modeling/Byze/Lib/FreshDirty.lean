import Mathlib.Logic.Function.Basic

/-! Cells of a write-back cache over another store. A cell that is dirty has to be
written down, and one that is fresh need not be once its value is gone, since
the store below has no value there. -/

namespace FreshDirty
variable {β : Type*}

structure Entry (β : Type*) where
  value : Option β
  dirty : Bool
  fresh : Bool

/-- What the cache shows where the store below shows `below`. -/
def see (cell : Option (Entry β)) (below : Option β) : Option β :=
  match cell with
  | none => below
  | some e => e.value

@[simp] theorem see_none (below : Option β) : see none below = below := rfl
@[simp] theorem see_some (e : Entry β) (below : Option β) : see (some e) below = e.value := rfl

/-- The combinations of flags that occur: a value need not be dirty, but if it
is fresh it is; a missing value is either fresh or dirty. -/
def Entry.Documented (e : Entry β) : Prop :=
  if e.value.isSome then e.fresh = true → e.dirty = true else e.fresh = !e.dirty

/-- The flags say the truth about the store below. -/
structure Entry.Sound (below : Option β) (e : Entry β) : Prop where
  documented : e.Documented
  fresh_below : e.fresh = true → below = none
  clean_below : e.dirty = false → e.value = below

variable {below : Option β} {e ours : Entry β} {v : β}

theorem sound_fetched (value : Option β) : Entry.Sound value ⟨value, false, value.isNone⟩ where
  documented := by cases value <;> simp [Entry.Documented]
  fresh_below h := by simpa using h
  clean_below _ := rfl

theorem sound_clean (v : β) : Entry.Sound (some v) ⟨some v, false, false⟩ := sound_fetched (some v)

theorem sound_add {fresh : Bool} (hfresh : fresh = true → below = none) :
    Entry.Sound below ⟨some v, true, fresh⟩ where
  documented := by simp [Entry.Documented]
  fresh_below := hfresh
  clean_below h := by cases h

theorem Entry.Sound.add (h : e.Sound below) {fresh : Bool}
    (hfresh : fresh = true → e.value = none ∧ e.dirty = false) :
    Entry.Sound below ⟨some v, true, e.fresh || fresh⟩ := by
  refine sound_add fun hor => ?_
  rcases Bool.or_eq_true_iff.mp hor with hold | hnew
  · exact h.fresh_below hold
  · obtain ⟨hvalue, hdirty⟩ := hfresh hnew
    rw [← h.clean_below hdirty, hvalue]

theorem Entry.Sound.spend (hfresh : e.fresh = false) : Entry.Sound below ⟨none, true, e.fresh⟩ where
  documented := by simp [Entry.Documented, hfresh]
  fresh_below h := by rw [hfresh] at h; cases h
  clean_below h := by cases h

def writeBack (e : Entry β) (cell : Option (Entry β)) : Option (Entry β) :=
  match cell with
  | none => if e.fresh && e.value.isNone then none else some ⟨e.value, true, e.fresh⟩
  | some ours => if ours.fresh && e.value.isNone then none else some ⟨e.value, true, ours.fresh⟩

def misapplied (e ours : Entry β) : Bool := e.fresh && ours.value.isSome

theorem not_misapplied (h : e.Sound (see (some ours) below)) : misapplied e ours = false := by
  cases hfresh : e.fresh with
  | false => simp [misapplied, hfresh]
  | true => simp [misapplied, show ours.value = none from h.fresh_below hfresh]

variable {cell : Option (Entry β)}

theorem see_writeBack (h : e.Sound (see cell below)) (hcell : ∀ ours ∈ cell, ours.Sound below) :
    see (writeBack e cell) below = e.value := by
  cases cell with
  | none =>
    rw [writeBack]
    split
    case isTrue hgone =>
      obtain ⟨hfresh, hvalue⟩ := Bool.and_eq_true_iff.mp hgone
      rw [Option.isNone_iff_eq_none.mp hvalue]
      exact h.fresh_below hfresh
    case isFalse => rfl
  | some ours =>
    rw [writeBack]
    split
    case isTrue hgone =>
      obtain ⟨hfresh, hvalue⟩ := Bool.and_eq_true_iff.mp hgone
      rw [Option.isNone_iff_eq_none.mp hvalue]
      exact (hcell ours rfl).fresh_below hfresh
    case isFalse => rfl

theorem sound_writeBack (h : e.Sound (see cell below)) (hcell : ∀ ours ∈ cell, ours.Sound below) :
    ∀ written ∈ writeBack e cell, written.Sound below := by
  have hsound : ∀ fresh : Bool, (fresh = true → below = none) →
      ¬(fresh && e.value.isNone) = true → Entry.Sound below ⟨e.value, true, fresh⟩ := by
    intro fresh hfresh hkept
    cases hvalue : e.value with
    | some v => exact sound_add hfresh
    | none =>
      have hnot : fresh = false := by simpa [hvalue] using hkept
      subst hnot
      exact Entry.Sound.spend (e := ⟨none, true, false⟩) rfl
  intro written hwritten
  cases cell with
  | none =>
    rw [writeBack] at hwritten
    split at hwritten
    · cases hwritten
    case isFalse hkept =>
      cases hwritten
      exact hsound _ h.fresh_below hkept
  | some ours =>
    rw [writeBack] at hwritten
    split at hwritten
    · cases hwritten
    case isFalse hkept =>
      cases hwritten
      exact hsound _ (hcell ours rfl).fresh_below hkept

end FreshDirty
