import Mathlib.Data.List.Nodup

/-! The record of the numbered leaves that one-time keys have signed with.
A key whose leaves are all unused from some number on can use that number
without repeating a leaf. -/

namespace LeafLedger
variable {K : Type*} {used : List (K × Nat)} {k k' : K} {i j : Nat}

def Unused (used : List (K × Nat)) (k : K) (i : Nat) : Prop :=
  ∀ j, (k, j) ∈ used → j < i

def Untouched (used : List (K × Nat)) (k : K) : Prop :=
  ∀ j, (k, j) ∉ used

theorem Untouched.unused (h : Untouched used k) (i : Nat) : Unused used k i := by
  intro j hj
  exact False.elim (h j hj)

theorem untouched_nil (k : K) : Untouched [] k := by
  intro j hj
  cases hj

theorem Unused.mono (h : Unused used k i) (hij : i ≤ j) : Unused used k j := by
  intro l hl
  exact Nat.lt_of_lt_of_le (h l hl) hij

theorem Unused.nodup_cons (h : Unused used k i) (hn : used.Nodup) : ((k, i) :: used).Nodup := by
  refine List.nodup_cons.mpr ⟨?_, hn⟩
  intro hmem
  exact Nat.lt_irrefl i (h i hmem)

theorem Unused.advance (h : Unused used k i) : Unused ((k, i) :: used) k (i + 1) := by
  intro j hj
  rcases List.mem_cons.mp hj with he | hmem
  · obtain ⟨-, rfl⟩ := Prod.mk.inj he
    exact Nat.lt_succ_self _
  · exact Nat.lt_succ_of_lt (h j hmem)

theorem Untouched.cons_other (h : Untouched used k) (hk : k ≠ k') : Untouched ((k', j) :: used) k := by
  intro l hl
  rcases List.mem_cons.mp hl with he | hmem
  · exact hk (Prod.mk.inj he).1
  · exact h l hmem

end LeafLedger
