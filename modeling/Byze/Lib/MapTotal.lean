import Mathlib.Algebra.BigOperators.Group.List.Basic
import Mathlib.Algebra.Ring.Int.Defs
import Mathlib.Data.List.AList

/-! The sum of what the values of a finite map are worth, as entries come and
go. -/

namespace MapTotal
variable {α β : Type*} [DecidableEq α]

abbrev Map (α β : Type*) := AList fun _ : α => β

instance [DecidableEq β] : DecidableEq (Map α β) := fun m m' =>
  decidable_of_iff (m.entries = m'.entries) AList.ext_iff.symm

def total (worth : β → Int) (m : Map α β) : Int := (m.entries.map fun entry => worth entry.2).sum

def Holds (P : β → Prop) (m : Map α β) : Prop := ∀ a b, m.lookup a = some b → P b

variable {worth : β → Int} {P : β → Prop} {m : Map α β} {a : α} {b : β}

theorem mem_entries_iff : (⟨a, b⟩ : Sigma fun _ : α => β) ∈ m.entries ↔ m.lookup a = some b :=
  (List.mem_dlookup_iff m.nodupKeys).symm

theorem holds_empty : Holds P (∅ : Map α β) := by
  intro a b h
  cases h

theorem Holds.erase (h : Holds P m) (a : α) : Holds P (m.erase a) := by
  intro a' b' hlookup
  by_cases he : a' = a
  · rw [he, AList.lookup_erase] at hlookup
    cases hlookup
  · rw [AList.lookup_erase_ne he] at hlookup
    exact h a' b' hlookup

theorem Holds.insert (h : Holds P m) (a : α) (hb : P b) : Holds P (m.insert a b) := by
  intro a' b' hlookup
  by_cases he : a' = a
  · subst he
    rw [AList.lookup_insert] at hlookup
    cases hlookup
    exact hb
  · rw [AList.lookup_insert_ne he] at hlookup
    exact h a' b' hlookup

theorem total_erase_add (h : m.lookup a = some b) : total worth (m.erase a) + worth b = total worth m := by
  have hkey : a ∈ m.entries.keys := AList.lookup_isSome.mp (by rw [h]; rfl)
  obtain ⟨b', l, r, -, hentries, herase⟩ := List.exists_of_kerase hkey
  have hmem : (⟨a, b'⟩ : Sigma fun _ : α => β) ∈ m.entries := by
    rw [hentries]
    exact List.mem_append_right _ List.mem_cons_self
  have hb : b' = b := Option.some.inj ((mem_entries_iff.mp hmem).symm.trans h)
  have herase' : (m.erase a).entries = l ++ r := herase
  simp only [total, herase', hentries, List.map_append, List.map_cons, List.sum_append, List.sum_cons, hb]
  omega

theorem total_erase_le (h : Holds (0 ≤ worth ·) m) (a : α) : total worth (m.erase a) ≤ total worth m := by
  cases hlookup : m.lookup a with
  | none =>
    have herase : (m.erase a).entries = m.entries :=
      List.kerase_of_notMem_keys (AList.lookup_eq_none.mp hlookup)
    exact Int.le_of_eq (by simp [total, herase])
  | some b =>
    have hb := h a b hlookup
    have := @total_erase_add _ _ _ worth _ _ _ hlookup
    omega

theorem total_erase (m : Map α β) (a : α) :
    total worth (m.erase a) = total worth m - ((m.lookup a).map worth).getD 0 := by
  cases hlookup : m.lookup a with
  | none =>
    have herase : (m.erase a).entries = m.entries :=
      List.kerase_of_notMem_keys (AList.lookup_eq_none.mp hlookup)
    rw [total, herase]
    exact (Int.sub_zero _).symm
  | some b =>
    have hsum := @total_erase_add _ _ _ worth _ _ _ hlookup
    simp only [Option.map_some, Option.getD_some]
    omega

theorem total_insert (m : Map α β) (a : α) (b : β) :
    total worth (m.insert a b) = worth b + total worth (m.erase a) := by
  rfl

theorem total_insert_le (h : Holds (0 ≤ worth ·) m) (a : α) (b : β) :
    total worth (m.insert a b) ≤ total worth m + worth b := by
  have hinsert := @total_insert _ _ _ worth m a b
  have := total_erase_le h a
  omega

def Agree (m m' : Map α β) : Prop := ∀ a, m.lookup a = m'.lookup a

theorem lookup_insert_eq (m : Map α β) (a a' : α) (b : β) :
    (m.insert a b).lookup a' = if a' = a then some b else m.lookup a' := by
  by_cases he : a' = a
  · rw [he, AList.lookup_insert, if_pos rfl]
  · simp [he]

theorem lookup_erase_eq (m : Map α β) (a a' : α) :
    (m.erase a).lookup a' = if a' = a then none else m.lookup a' := by
  by_cases he : a' = a
  · rw [he, AList.lookup_erase, if_pos rfl]
  · simp [he]

theorem Agree.insert_erased {m' : Map α β} (h : Agree m' (m.erase a)) (hb : m.lookup a = some b) :
    Agree (m'.insert a b) m := by
  intro a'
  rw [lookup_insert_eq, h a', lookup_erase_eq]
  by_cases he : a' = a
  · rw [if_pos he, he, hb]
  · simp [he]

end MapTotal
