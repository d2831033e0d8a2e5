import Mathlib.Algebra.Order.BigOperators.Group.Finset
import Mathlib.Data.Fintype.BigOperators
import Mathlib.Tactic

/-! The queue of script checks. The master adds checks and joins the worker threads
until all of them are done; in every interleaving its verdict is that of the checks it
has added. -/

namespace Byze.CheckQueues

section
variable {T R Thread : Type}

/-- Where a thread stands: before the critical section with the checks it has just
done, asleep in it, or at work on a batch. -/
inductive Phase (T R : Type) where
  | outside
  | ready (nNow : Nat) (localResult : Option R)
  | waiting (localResult : Option R)
  | working (vChecks : List T) (doWork : Bool) (localResult : Option R)

def Phase.localResult : Phase T R → Option R
  | .outside => none
  | .ready _ localResult | .waiting localResult | .working _ _ localResult => localResult

/-- The checks added since `Complete` last returned are kept for the statements only. -/
structure CheckQueue (T R Thread : Type) where
  queue : List T
  nIdle : Nat
  nTotal : Nat
  mResult : Option R
  nTodo : Nat
  phase : Thread → Phase T R
  added : List T

def CheckQueue.init : CheckQueue T R Thread := ⟨[], 0, 0, none, 0, fun _ => .outside, []⟩

inductive Action (T Thread : Type) where
  | add (vChecks : List T)
  | call (t : Thread)
  | enter (t : Thread)
  | wake (t : Thread)
  | finish (t : Thread)

def runChecks (check : T → Option R) : List T → Option R → Option R
  | [], localResult => localResult
  | c :: vChecks, _ => if (check c).isSome then check c else runChecks check vChecks (check c)

variable [DecidableEq Thread] (check : T → Option R) (nBatchSize : Nat) (master : Thread)

namespace CheckQueue
variable (s : CheckQueue T R Thread)

def setPhase (t : Thread) (p : Phase T R) : CheckQueue T R Thread :=
  { s with phase := Function.update s.phase t p }

/-- A local result goes to `m_result` if there is none yet. -/
def cleanUp (t : Thread) (nNow : Nat) (localResult : Option R) : CheckQueue T R Thread :=
  if nNow = 0 then { s with nTotal := s.nTotal + 1 }
  else
    { s with mResult := s.mResult.or localResult, nTodo := s.nTodo - nNow }.setPhase t
      (.ready 0 (if s.mResult.isNone then none else localResult))

/-- From the test for an empty queue on: the master returns, the thread waits, or it
takes a batch. -/
def proceed (t : Thread) : CheckQueue T R Thread × Option (Option R) :=
  if s.queue.isEmpty then
    if t = master ∧ s.nTodo = 0 then
      ({ s with nTotal := s.nTotal - 1, mResult := none, added := [] }.setPhase t .outside, some s.mResult)
    else ({ s with nIdle := s.nIdle + 1 }.setPhase t (.waiting (s.phase t).localResult), none)
  else
    let nNow := max 1 (min nBatchSize (s.queue.length / (s.nTotal + s.nIdle + 1)))
    let start := s.queue.length - nNow
    ({ s with queue := s.queue.take start }.setPhase t
      (.working (s.queue.drop start) s.mResult.isNone (s.phase t).localResult), none)

/-- One step of one thread. A call of `Complete` that returns leaves its result. -/
def step : Action T Thread → Option (CheckQueue T R Thread × Option (Option R))
  | .add vChecks =>
    match s.phase master with
    | .outside => some ({ s with
        queue := s.queue ++ vChecks
        nTodo := s.nTodo + vChecks.length
        added := s.added ++ vChecks }, none)
    | _ => none
  | .call t =>
    match s.phase t with
    | .outside => some (s.setPhase t (.ready 0 none), none)
    | _ => none
  | .enter t =>
    match s.phase t with
    | .ready nNow localResult => some ((s.cleanUp t nNow localResult).proceed nBatchSize master t)
    | _ => none
  | .wake t =>
    match s.phase t with
    | .waiting _ => some ({ s with nIdle := s.nIdle - 1 }.proceed nBatchSize master t)
    | _ => none
  | .finish t =>
    match s.phase t with
    | .working vChecks doWork localResult =>
      some (s.setPhase t (.ready vChecks.length
        (if doWork then runChecks check vChecks localResult else localResult)), none)
    | _ => none

end CheckQueue

inductive Reachable : CheckQueue T R Thread → Prop
  | init : Reachable .init
  | step {s s' : CheckQueue T R Thread} {a : Action T Thread} {r : Option (Option R)} (h : Reachable s)
      (hstep : s.step check nBatchSize master a = some (s', r)) : Reachable s'
end

section
variable {T R Thread : Type} [Fintype Thread] {check : T → Option R} {nBatchSize : Nat} {master t : Thread}
  {s s' : CheckQueue T R Thread} {l : Option R}

theorem runChecks_some {v : List T} (hv : v ≠ []) {r : R} (h : runChecks check v l = some r) :
    ∃ c ∈ v, check c = some r := by
  induction v generalizing l with
  | nil => exact absurd rfl hv
  | cons c v ih =>
    rw [runChecks] at h
    split at h
    · exact ⟨c, List.mem_cons_self, h⟩
    · rename_i hpass
      cases v with
      | nil => exact absurd (congrArg Option.isSome h) hpass
      | cons c' v =>
        obtain ⟨c'', hmem, hfail⟩ := ih (List.cons_ne_nil _ _) h
        exact ⟨c'', List.mem_cons_of_mem c hmem, hfail⟩

theorem runChecks_none {v : List T} {c : T} (hc : c ∈ v) (h : runChecks check v l = none) : check c = none := by
  induction v generalizing l with
  | nil => cases hc
  | cons c' v ih =>
    rw [runChecks] at h
    split at h
    · rename_i hfail
      rw [h] at hfail
      cases hfail
    · rename_i hpass
      rcases List.mem_cons.mp hc with rfl | hc
      · simpa using hpass
      · exact ih hc h

def Phase.held : Phase T R → Nat
  | .ready nNow _ => nNow
  | .working vChecks _ _ => vChecks.length
  | _ => 0

/-- Whether a failure of `c` will still be seen through this thread. -/
def Phase.Covers (c : T) : Phase T R → Prop
  | .ready nNow localResult => 0 < nNow ∧ localResult.isSome
  | .working vChecks _ _ => c ∈ vChecks
  | _ => False

variable {p : Phase T R}

theorem Phase.Covers.held_pos {c : T} (h : p.Covers c) : 0 < p.held := by
  cases p with
  | outside => exact h.elim
  | ready => exact h.1
  | waiting => exact h.elim
  | working => exact List.length_pos_of_mem h

def Fails (check : T → Option R) (added : List T) (r : R) : Prop := ∃ c ∈ added, check c = some r

/-- A failure that a thread is about to report is one of this round, or comes too late
to count. -/
def Phase.Ok (check : T → Option R) (added : List T) (known : Prop) : Phase T R → Prop
  | .ready nNow localResult => 0 < nNow → ∀ r, localResult = some r → known ∨ Fails check added r
  | .working vChecks doWork _ => vChecks ≠ [] ∧ (∀ c ∈ vChecks, c ∈ added) ∧ (doWork = false → known)
  | _ => True

structure Inv (check : T → Option R) (s : CheckQueue T R Thread) : Prop where
  todo : s.nTodo = s.queue.length + ∑ t, (s.phase t).held
  queued : ∀ c ∈ s.queue, c ∈ s.added
  failure : ∀ r, s.mResult = some r → Fails check s.added r
  thread : ∀ t, (s.phase t).Ok check s.added (s.mResult.isSome = true)
  covered : ∀ c ∈ s.added, check c = none ∨ c ∈ s.queue ∨ s.mResult.isSome = true ∨ ∃ t, (s.phase t).Covers c

theorem inv_init : Inv check (.init : CheckQueue T R Thread) where
  todo := by simp [CheckQueue.init, Phase.held]
  queued _ h := by cases h
  failure _ h := by cases h
  thread _ := trivial
  covered _ h := by cases h

theorem Phase.Ok.mono {added added' : List T} {known known' : Prop} (h : p.Ok check added known)
    (hadded : added ⊆ added') (hknown : known → known') : p.Ok check added' known' := by
  cases p with
  | outside => trivial
  | ready =>
    intro hpos r hr
    refine (h hpos r hr).imp hknown ?_
    rintro ⟨c, hc, hfail⟩
    exact ⟨c, hadded hc, hfail⟩
  | waiting => trivial
  | working => exact ⟨h.1, fun c hc => hadded (h.2.1 c hc), fun hd => hknown (h.2.2 hd)⟩

theorem Inv.add (h : Inv check s) (v : List T) :
    Inv check { s with queue := s.queue ++ v, nTodo := s.nTodo + v.length, added := s.added ++ v } where
  todo := by
    rw [List.length_append, h.todo, Nat.add_right_comm]
  queued c hc := List.mem_append.mpr ((List.mem_append.mp hc).imp_left (h.queued c))
  failure r hr := by
    obtain ⟨c, hc, hfail⟩ := h.failure r hr
    exact ⟨c, List.mem_append_left _ hc, hfail⟩
  thread t := (h.thread t).mono (List.subset_append_left _ _) id
  covered c hc := by
    rcases List.mem_append.mp hc with hc | hc
    · exact (h.covered c hc).imp_right (Or.imp_left (List.mem_append_left _))
    · exact Or.inr (Or.inl (List.mem_append_right _ hc))

theorem Inv.counters (h : Inv check s) (nIdle nTotal : Nat) :
    Inv check { s with nIdle := nIdle, nTotal := nTotal } :=
  ⟨h.todo, h.queued, h.failure, h.thread, h.covered⟩

theorem Inv.held_eq_zero (h : Inv check s) (hqueue : s.queue = []) (htodo : s.nTodo = 0) (t : Thread) :
    (s.phase t).held = 0 := by
  have hsum := h.todo
  rw [htodo, hqueue, List.length_nil, Nat.zero_add] at hsum
  exact Finset.sum_eq_zero_iff.mp hsum.symm t (Finset.mem_univ t)

/-- A call of `Complete` that returns has the verdict of its round, and leaves nothing
to do. -/
structure Returns (check : T → Option R) (added : List T) (s' : CheckQueue T R Thread) (r : Option R) : Prop where
  none_iff : r = none ↔ ∀ c ∈ added, check c = none
  failure : ∀ x, r = some x → Fails check added x
  queue : s'.queue = []
  held : ∀ t, (s'.phase t).held = 0

theorem Inv.reset (h : Inv check s) (hqueue : s.queue = []) (htodo : s.nTodo = 0) :
    Inv check { s with mResult := none, added := [] } where
  todo := h.todo
  queued c hc := by
    rw [hqueue] at hc
    cases hc
  failure _ hr := by cases hr
  thread t := by
    have hown := h.thread t
    have hzero := h.held_eq_zero hqueue htodo t
    cases hp : s.phase t with
    | outside => trivial
    | waiting => trivial
    | ready =>
      rw [hp] at hzero
      exact fun hpos => absurd hzero hpos.ne'
    | working =>
      rw [hp] at hown hzero
      exact absurd (List.eq_nil_of_length_eq_zero hzero) hown.1
  covered _ hc := by cases hc

theorem Inv.none_iff (h : Inv check s) (hqueue : s.queue = []) (htodo : s.nTodo = 0) :
    s.mResult = none ↔ ∀ c ∈ s.added, check c = none := by
  constructor
  · intro hnone c hc
    rcases h.covered c hc with hpass | hq | hk | ⟨t, ht⟩
    · exact hpass
    · rw [hqueue] at hq
      cases hq
    · rw [hnone] at hk
      cases hk
    · exact absurd ht.held_pos (h.held_eq_zero hqueue htodo t).not_gt
  · intro hall
    refine Option.eq_none_iff_forall_ne_some.mpr fun r hr => ?_
    obtain ⟨c, hc, hfail⟩ := h.failure r hr
    rw [hall c hc] at hfail
    cases hfail

variable [DecidableEq Thread]

theorem sum_held_update (f : Thread → Phase T R) (p : Phase T R) :
    ∑ t', (Function.update f t p t').held + (f t).held = ∑ t', (f t').held + p.held := by
  have hrest : ∑ t' ∈ Finset.univ.erase t, (Function.update f t p t').held =
      ∑ t' ∈ Finset.univ.erase t, (f t').held := by
    refine Finset.sum_congr rfl fun t' ht' => ?_
    rw [Function.update_of_ne (Finset.ne_of_mem_erase ht')]
  rw [← Finset.add_sum_erase _ _ (Finset.mem_univ t),
    ← Finset.add_sum_erase _ (fun t' => (f t').held) (Finset.mem_univ t), Function.update_self]
  omega

/-- What a move of one thread has to respect. -/
theorem Inv.move (h : Inv check s) (hphase : s'.phase = Function.update s.phase t p)
    (hadded : s'.added = s.added)
    (htodo : s'.nTodo + s.queue.length + (s.phase t).held = s.nTodo + s'.queue.length + p.held)
    (hqueue : s'.queue ⊆ s.queue) (hfailure : ∀ r, s'.mResult = some r → Fails check s.added r)
    (hknown : s.mResult.isSome = true → s'.mResult.isSome = true)
    (hok : p.Ok check s.added (s'.mResult.isSome = true))
    (hcovered : ∀ c, check c ≠ none → c ∈ s.queue ∨ (s.phase t).Covers c →
      c ∈ s'.queue ∨ s'.mResult.isSome = true ∨ p.Covers c) : Inv check s' where
  todo := by
    have hold := h.todo
    have hsum := sum_held_update (t := t) s.phase p
    rw [hphase]
    omega
  queued c hc := hadded ▸ h.queued c (hqueue hc)
  failure := hadded ▸ hfailure
  thread t' := by
    rw [hphase, hadded]
    by_cases ht : t' = t
    · rw [ht, Function.update_self]
      exact hok
    · rw [Function.update_of_ne ht]
      exact (h.thread t').mono (List.Subset.refl _) hknown
  covered c hc := by
    by_cases hpass : check c = none
    · exact Or.inl hpass
    refine Or.inr ?_
    have hupdate : ∀ t' q, Function.update s.phase t p t' = q → q.Covers c → ∃ t', (s'.phase t').Covers c := by
      rintro t' q rfl hq
      exact ⟨t', hphase ▸ hq⟩
    have hend : c ∈ s'.queue ∨ s'.mResult.isSome = true ∨ p.Covers c →
        c ∈ s'.queue ∨ s'.mResult.isSome = true ∨ ∃ t', (s'.phase t').Covers c :=
      Or.imp_right (Or.imp_right (hupdate t p (Function.update_self ..)))
    rcases h.covered c (hadded ▸ hc) with hnone | hq | hk | ⟨t', ht'⟩
    · exact absurd hnone hpass
    · exact hend (hcovered c hpass (Or.inl hq))
    · exact Or.inr (Or.inl (hknown hk))
    · by_cases ht : t' = t
      · exact hend (hcovered c hpass (Or.inr (ht ▸ ht')))
      · exact Or.inr (Or.inr (hupdate t' _ (Function.update_of_ne ht ..) ht'))

theorem Inv.rest (h : Inv check s) (ht : (s.phase t).held = 0) (hp : p.held = 0)
    (hok : p.Ok check s.added (s.mResult.isSome = true)) : Inv check (s.setPhase t p) := by
  refine h.move rfl rfl ?_ (List.Subset.refl _) h.failure id hok fun c _ hc => Or.inl (hc.resolve_right fun hc => ?_)
  · rw [ht, hp]
    rfl
  · exact absurd hc.held_pos ht.not_gt

theorem Inv.cleanUp (h : Inv check s) {nNow : Nat} (ht : s.phase t = .ready nNow l) :
    Inv check (s.cleanUp t nNow l) ∧ ((s.cleanUp t nNow l).phase t).held = 0 ∧
      (s.cleanUp t nNow l).added = s.added := by
  have hheld : (s.phase t).held = nNow := congrArg Phase.held ht
  rw [CheckQueue.cleanUp]
  by_cases hzero : nNow = 0
  · rw [if_pos hzero]
    exact ⟨h.counters s.nIdle (s.nTotal + 1), hheld.trans hzero, rfl⟩
  rw [if_neg hzero]
  refine ⟨?_, by simp [CheckQueue.setPhase, Phase.held], rfl⟩
  have hle : nNow ≤ ∑ t, (s.phase t).held := by
    rw [← hheld]
    exact Finset.single_le_sum (f := fun t => (s.phase t).held) (fun _ _ => Nat.zero_le _) (Finset.mem_univ t)
  have hown := h.thread t
  rw [ht] at hown
  refine h.move (t := t) rfl rfl ?_ (List.Subset.refl _) ?_ ?_ ?_ ?_
  · have hold := h.todo
    show s.nTodo - nNow + s.queue.length + _ = s.nTodo + s.queue.length + 0
    omega
  · intro r hr
    rcases Option.or_eq_some_iff.mp hr with hm | ⟨hm, hl⟩
    · exact h.failure r hm
    · refine (hown (Nat.pos_of_ne_zero hzero) r hl).resolve_left ?_
      rw [hm]
      exact Bool.false_ne_true
  · intro hm
    exact Option.isSome_or.trans (by simp [hm])
  · exact fun hpos => absurd hpos (Nat.lt_irrefl 0)
  · rintro c - (hc | hc)
    · exact Or.inl hc
    · rw [ht] at hc
      exact Or.inr (Or.inl (Option.isSome_or.trans (by simp [hc.2])))

theorem Inv.finish (h : Inv check s) {v : List T} {d : Bool} (ht : s.phase t = .working v d l) :
    Inv check (s.setPhase t (.ready v.length (if d then runChecks check v l else l))) := by
  have hown := h.thread t
  rw [ht] at hown
  obtain ⟨hne, hadded, hknown⟩ := hown
  refine h.move (t := t) rfl rfl ?_ (List.Subset.refl _) h.failure id ?_ ?_
  · rw [ht]
    rfl
  · intro _ r hr
    cases d with
    | false => exact Or.inl (hknown rfl)
    | true =>
      obtain ⟨c, hc, hfail⟩ := runChecks_some hne hr
      exact Or.inr ⟨c, hadded c hc, hfail⟩
  · rintro c hfail (hc | hc)
    · exact Or.inl hc
    · rw [ht] at hc
      cases d with
      | false => exact Or.inr (Or.inl (hknown rfl))
      | true =>
        refine Or.inr (Or.inr ⟨List.length_pos_of_mem hc, ?_⟩)
        rw [Option.isSome_iff_ne_none]
        exact fun hnone => hfail (runChecks_none hc hnone)

theorem Inv.take (h : Inv check s) (ht : (s.phase t).held = 0) {start : Nat} (hstart : start < s.queue.length)
    (l : Option R) :
    Inv check ({ s with queue := s.queue.take start }.setPhase t
      (.working (s.queue.drop start) s.mResult.isNone l)) := by
  refine h.move (t := t) rfl rfl ?_ (List.take_subset _ _) h.failure id ?_ ?_
  · show s.nTodo + _ + _ = s.nTodo + (s.queue.take start).length + (s.queue.drop start).length
    rw [List.length_take, List.length_drop]
    omega
  · refine ⟨?_, fun c hc => h.queued c (List.mem_of_mem_drop hc), fun hd => ?_⟩
    · rw [← List.length_pos_iff, List.length_drop]
      omega
    · rw [← Option.not_isNone]
      exact congrArg not hd
  · rintro c - (hc | hc)
    · rw [← List.take_append_drop start s.queue, List.mem_append] at hc
      exact hc.imp_right Or.inr
    · exact absurd hc.held_pos ht.not_gt

theorem Inv.proceed {r : Option (Option R)} (h : Inv check s) (ht : (s.phase t).held = 0)
    (hgo : s.proceed nBatchSize master t = (s', r)) : Inv check s' ∧ ∀ x, r = some x → Returns check s.added s' x := by
  rw [CheckQueue.proceed] at hgo
  by_cases hempty : s.queue.isEmpty = true
  · rw [if_pos hempty] at hgo
    have hqueue := List.isEmpty_iff.mp hempty
    by_cases hdone : t = master ∧ s.nTodo = 0
    · rw [if_pos hdone] at hgo
      obtain ⟨rfl, rfl⟩ := Prod.mk.inj hgo
      have hinv := ((h.reset hqueue hdone.2).counters s.nIdle (s.nTotal - 1)).rest ht (p := .outside) rfl trivial
      refine ⟨hinv, fun x hx => ?_⟩
      obtain rfl := Option.some.inj hx
      exact ⟨h.none_iff hqueue hdone.2, h.failure, hqueue, hinv.held_eq_zero hqueue hdone.2⟩
    · rw [if_neg hdone] at hgo
      obtain ⟨rfl, rfl⟩ := Prod.mk.inj hgo
      exact ⟨(h.counters (s.nIdle + 1) s.nTotal).rest ht rfl trivial, fun x hx => by cases hx⟩
  · rw [if_neg hempty] at hgo
    obtain ⟨rfl, rfl⟩ := Prod.mk.inj hgo
    have hpos : 0 < s.queue.length := List.length_pos_iff.mpr fun hnil => hempty (List.isEmpty_iff.mpr hnil)
    exact ⟨h.take ht (by omega) _, fun x hx => by cases hx⟩

theorem Inv.step {a : Action T Thread} {r : Option (Option R)} (h : Inv check s)
    (hstep : s.step check nBatchSize master a = some (s', r)) :
    Inv check s' ∧ ∀ x, r = some x → Returns check s.added s' x := by
  cases a with
  | add v =>
    rw [CheckQueue.step] at hstep
    split at hstep
    · cases hstep
      exact ⟨h.add v, fun x hx => by cases hx⟩
    · cases hstep
  | call t =>
    rw [CheckQueue.step] at hstep
    split at hstep
    · rename_i ht
      cases hstep
      refine ⟨h.rest (congrArg Phase.held ht) rfl ?_, fun x hx => by cases hx⟩
      exact fun hpos => absurd hpos (Nat.lt_irrefl 0)
    · cases hstep
  | enter t =>
    rw [CheckQueue.step] at hstep
    split at hstep
    · rename_i ht
      obtain ⟨hclean, hheld, hadded⟩ := h.cleanUp ht
      exact hadded ▸ hclean.proceed hheld (Option.some.inj hstep)
    · cases hstep
  | wake t =>
    rw [CheckQueue.step] at hstep
    split at hstep
    · rename_i ht
      exact (h.counters (s.nIdle - 1) s.nTotal).proceed (congrArg Phase.held ht) (Option.some.inj hstep)
    · cases hstep
  | finish t =>
    rw [CheckQueue.step] at hstep
    split at hstep
    · rename_i ht
      cases hstep
      exact ⟨h.finish ht, fun x hx => by cases hx⟩
    · cases hstep

theorem Reachable.inv (h : Reachable check nBatchSize master s) : Inv check s := by
  induction h with
  | init => exact inv_init
  | step _ hstep ih => exact (ih.step hstep).1

/-- In every interleaving, a call of `Complete` that returns has no result exactly when
every check of its round passes, otherwise that of one which fails, and no check of
the round is left. -/
theorem complete_verdict (h : Reachable check nBatchSize master s) {a : Action T Thread} {r : Option R}
    (hstep : s.step check nBatchSize master a = some (s', some r)) :
    (r = none ↔ ∀ c ∈ s.added, check c = none) ∧ (∀ x, r = some x → ∃ c ∈ s.added, check c = some x) ∧
      s'.queue = [] ∧ ∀ t, (s'.phase t).held = 0 := by
  obtain ⟨hnone, hfailure, hqueue, hheld⟩ := (h.inv.step hstep).2 r rfl
  exact ⟨hnone, hfailure, hqueue, hheld⟩

/-- One worker and the master; the one check that is added fails. -/
theorem complete_verdict_sample : ∃ s s' : CheckQueue Nat Nat Bool, Reachable some 128 true s ∧
      s.step some 128 true (.enter true) = some (s', some (some 7)) ∧ s.added = [7] ∧
      ∃ c ∈ s.added, some c = some 7 := by
  have h : Reachable some 128 true (.init : CheckQueue Nat Nat Bool) := .init
  have h := (((h.step (a := .add [7]) rfl).step (a := .call true) rfl).step (a := .enter true) rfl).step
    (a := .finish true) rfl
  exact ⟨_, _, h, rfl, rfl, (complete_verdict h (a := .enter true) rfl).2.1 7 rfl⟩
end

end Byze.CheckQueues
