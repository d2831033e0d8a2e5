import Mathlib.Data.List.Dedup
import Mathlib.Data.Set.Finite.Basic
import Mathlib.Logic.Relation
import Mathlib.Logic.Function.Iterate

/-! A loop over a worklist, which collects everything that can be reached from a
start. -/

namespace Worklist
variable {α : Type*} [DecidableEq α]

structure State (α : Type*) where
  todo : List α
  done : List α

def step (next : α → List α) (s : State α) : State α :=
  match s.todo with
  | [] => s
  | x :: todo =>
    ⟨todo ++ ((next x).filter fun y => y ∉ x :: s.done ∧ y ∉ todo).dedup, x :: s.done⟩

def collect (next : α → List α) (rounds : Nat) (start : List α) : List α :=
  ((step next)^[rounds] ⟨start.dedup, []⟩).done

def Reaches (next : α → List α) : α → α → Prop := Relation.ReflTransGen fun x y => y ∈ next x

structure Inv (next : α → List α) (start : List α) (s : State α) : Prop where
  nodup : (s.todo ++ s.done).Nodup
  sound : ∀ x ∈ s.todo ++ s.done, ∃ r ∈ start, Reaches next r x
  roots : ∀ r ∈ start, r ∈ s.todo ++ s.done
  closed : ∀ x ∈ s.done, ∀ y ∈ next x, y ∈ s.todo ++ s.done

variable {next : α → List α} {start : List α}

theorem Inv.init : Inv next start ⟨start.dedup, []⟩ where
  nodup := by simpa using List.nodup_dedup start
  sound x hx := ⟨x, by simpa using hx, Relation.ReflTransGen.refl⟩
  roots r hr := by simpa using hr
  closed _ hx := by cases hx

theorem mem_step_cons {x y : α} {todo done : List α} :
    y ∈ (step next ⟨x :: todo, done⟩).todo ++ (step next ⟨x :: todo, done⟩).done ↔
      y ∈ (x :: todo) ++ done ∨ y ∈ next x := by
  simp only [step, List.mem_append, List.mem_dedup, List.mem_filter, List.mem_cons, decide_eq_true_eq]
  tauto

theorem Inv.step {s : State α} (h : Inv next start s) : Inv next start (step next s) := by
  obtain ⟨todo, done⟩ := s
  cases todo with
  | nil => exact h
  | cons x todo =>
    have hx : x ∈ (x :: todo) ++ done := List.mem_append_left _ List.mem_cons_self
    constructor
    · have hold := h.nodup
      simp only [List.cons_append, List.nodup_cons, List.mem_append, not_or] at hold
      obtain ⟨⟨hxtodo, hxdone⟩, hrest⟩ := hold
      obtain ⟨htodo, hdone, hdisjoint⟩ := List.nodup_append.mp hrest
      refine List.nodup_append.mpr ⟨List.nodup_append.mpr ⟨htodo, List.nodup_dedup _, ?_⟩,
        List.nodup_cons.mpr ⟨hxdone, hdone⟩, ?_⟩
      · rintro a ha b hb rfl
        simp only [List.mem_dedup, List.mem_filter, decide_eq_true_eq] at hb
        exact hb.2.2 ha
      · rintro a ha b hb rfl
        rcases List.mem_append.mp ha with hold | hnew
        · rcases List.mem_cons.mp hb with hax | hb
          · exact hxtodo (hax ▸ hold)
          · exact hdisjoint a hold a hb rfl
        · simp only [List.mem_dedup, List.mem_filter, decide_eq_true_eq] at hnew
          exact hnew.2.1 hb
    · intro y hy
      rcases mem_step_cons.mp hy with hy | hy
      · exact h.sound y hy
      · obtain ⟨r, hr, hreach⟩ := h.sound x hx
        exact ⟨r, hr, hreach.tail hy⟩
    · exact fun r hr => mem_step_cons.mpr (Or.inl (h.roots r hr))
    · intro z hz y hy
      rcases List.mem_cons.mp hz with rfl | hz
      · exact mem_step_cons.mpr (Or.inr hy)
      · exact mem_step_cons.mpr (Or.inl (h.closed z hz y hy))

theorem Inv.iterate (rounds : Nat) : Inv next start ((Worklist.step next)^[rounds] ⟨start.dedup, []⟩) := by
  induction rounds with
  | zero => exact Inv.init
  | succ n ih =>
    rw [Function.iterate_succ_apply']
    exact ih.step

theorem iterate_progress (next : α → List α) (start : List α) (rounds : Nat) :
    ((step next)^[rounds] ⟨start.dedup, []⟩).todo = [] ∨
      ((step next)^[rounds] ⟨start.dedup, []⟩).done.length = rounds := by
  induction rounds with
  | zero => exact Or.inr rfl
  | succ n ih =>
    rw [Function.iterate_succ_apply']
    generalize (step next)^[n] ⟨start.dedup, []⟩ = s at ih
    obtain ⟨todo, done⟩ := s
    cases todo with
    | nil => exact Or.inl rfl
    | cons x todo =>
      rcases ih with ih | ih
      · cases ih
      · exact Or.inr (congrArg (· + 1) ih)

theorem nodup_collect (rounds : Nat) : (collect next rounds start).Nodup :=
  (List.nodup_append.mp (Inv.iterate rounds).nodup).2.1

theorem mem_collect_iff {rounds : Nat} (univ : List α)
    (huniv : ∀ r ∈ start, ∀ x, Reaches next r x → x ∈ univ) (hrounds : univ.length ≤ rounds) {x : α} :
    x ∈ collect next rounds start ↔ ∃ r ∈ start, Reaches next r x := by
  have hinv : Inv next start _ := Inv.iterate rounds
  have hprogress := iterate_progress next start rounds
  unfold collect
  generalize (step next)^[rounds] ⟨start.dedup, []⟩ = s at hinv hprogress
  have hsub : s.todo ++ s.done ⊆ univ := by
    intro y hy
    obtain ⟨r, hr, hreach⟩ := hinv.sound y hy
    exact huniv r hr y hreach
  have hlength := (hinv.nodup.subperm hsub).length_le
  have htodo : s.todo = [] := by
    rcases hprogress with htodo | hdone
    · exact htodo
    · rw [List.length_append] at hlength
      exact List.length_eq_zero_iff.mp (by omega)
  constructor
  · intro hx
    exact hinv.sound x (List.mem_append_right _ hx)
  · rintro ⟨r, hr, hreach⟩
    have hroot := hinv.roots r hr
    have hclosed := hinv.closed
    rw [htodo] at hroot hclosed
    induction hreach with
    | refl => exact hroot
    | tail _ hy ih => exact hclosed _ ih _ hy

end Worklist
