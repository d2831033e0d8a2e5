import Byze.MiningController

/-! No interleaving makes a thread hash stale work: the generation of a unit of
work counts the callbacks from before its parent was the tip. -/

namespace Byze

namespace MiningController

/-- A tip with the given hash was active at a moment before the check and not
before the change of tip that was last announced then. -/
def Current (tips : List Tip) (parent : Uint256) (announced : Option Nat) (checkedAt : Nat) : Prop :=
  ∃ moment < checkedAt, (tips[moment]?).map Tip.hash = some parent ∧ ∀ change ∈ announced, change ≤ moment

/-- The 64-bit generation does not come round while a unit of work is in use: each
check of it came fewer than 2^64 callbacks after its generation had been read. A
unit is dropped a minute after it was built. -/
def ShortLives (s : MinerState) : Prop := ∀ r ∈ s.hashes, r.life < 2 ^ 64

section
variable (generation : UInt64)

def GenOk (chain : Chain) (gen : UInt64) (loadedAt : Nat) : Prop :=
  loadedAt ≤ chain.callbacks.length ∧ gen = generation + UInt64.ofNat loadedAt

/-- The parent of the work was the tip after all the callbacks that the
generation of the work counts. -/
def UnitOk (chain : Chain) (work : WorkUnit) : Prop :=
  GenOk generation chain work.generation work.loadedAt ∧
    ∃ moment < chain.tips.length, (chain.tips[moment]?).map Tip.hash = some work.block.hashPrevBlock ∧
      ∀ change ∈ chain.callbacks.take work.loadedAt, change ≤ moment

variable (numThreads : Nat)

def OwnNonce (t nonce : Nat) : Prop := ∃ k, nonce = t + k * stride numThreads

def ThreadOk (chain : Chain) (t : Nat) : ThreadState → Prop
  | .idle | .locked | .exhausted => True
  | .loaded gen loadedAt | .assembled gen loadedAt _ => GenOk generation chain gen loadedAt
  | .mining work nonce => UnitOk generation chain work ∧ OwnNonce numThreads t nonce
  | .checked work nonce announced checkedAt life =>
    (UnitOk generation chain work ∧ OwnNonce numThreads t nonce) ∧ nonce ≤ maxNonce ∧
      (life < 2 ^ 64 → Current chain.tips work.block.hashPrevBlock announced checkedAt)

def RecordOk (chain : Chain) (r : HashRecord) : Prop :=
  r.header.nNonce.toNat ∈ nonceStream numThreads r.thread ∧
    (r.life < 2 ^ 64 → Current chain.tips r.header.hashPrevBlock r.announced r.checkedAt)

structure MinerInv (s : MinerState) : Prop where
  tipGeneration : s.chain.tipGeneration = generation + UInt64.ofNat s.chain.callbacks.length
  announced : ∀ change ∈ s.chain.callbacks, change < s.chain.tips.length
  threads : ∀ t, ThreadOk generation numThreads s.chain t (s.threads t)
  work : ∀ unit ∈ s.work, UnitOk generation s.chain unit
  hashes : ∀ r ∈ s.hashes, RecordOk numThreads s.chain r

structure Grows (chain chain' : Chain) : Prop where
  tips : chain.tips <+: chain'.tips
  callbacks : chain.callbacks <+: chain'.callbacks

variable {generation numThreads} {chain chain' : Chain}

theorem getElem?_of_initial {α : Type} {l l' : List α} (h : l <+: l') {i : Nat} (hi : i < l.length) :
    l'[i]? = l[i]? := by
  obtain ⟨r, rfl⟩ := h
  exact List.getElem?_append_left hi

section
variable (hgrows : Grows chain chain')
include hgrows

theorem Current.mono {parent : Uint256} {announced : Option Nat} {checkedAt : Nat}
    (h : Current chain.tips parent announced checkedAt) :
    Current chain'.tips parent announced checkedAt := by
  obtain ⟨moment, hmoment, hparent, hchange⟩ := h
  refine ⟨moment, hmoment, ?_, hchange⟩
  have hlt : moment < chain.tips.length := by
    by_contra hge
    rw [List.getElem?_eq_none (by omega)] at hparent
    cases hparent
  rwa [getElem?_of_initial hgrows.tips hlt]

theorem GenOk.mono {gen : UInt64} {loadedAt : Nat} (h : GenOk generation chain gen loadedAt) :
    GenOk generation chain' gen loadedAt :=
  ⟨h.1.trans hgrows.callbacks.length_le, h.2⟩

theorem UnitOk.mono {work : WorkUnit} (h : UnitOk generation chain work) :
    UnitOk generation chain' work := by
  obtain ⟨hgen, moment, hmoment, hparent, hchange⟩ := h
  refine ⟨hgen.mono hgrows, moment, hmoment.trans_le hgrows.tips.length_le, ?_, ?_⟩
  · rwa [getElem?_of_initial hgrows.tips hmoment]
  · obtain ⟨rest, hrest⟩ := hgrows.callbacks
    rwa [← hrest, List.take_append_of_le_length hgen.1]

theorem ThreadOk.mono {t : Nat} {thread : ThreadState} (h : ThreadOk generation numThreads chain t thread) :
    ThreadOk generation numThreads chain' t thread := by
  cases thread with
  | idle | locked | exhausted => trivial
  | loaded gen loadedAt => exact GenOk.mono hgrows h
  | assembled gen loadedAt template => exact GenOk.mono hgrows h
  | mining work nonce => exact ⟨h.1.mono hgrows, h.2⟩
  | checked work nonce announced checkedAt life =>
    exact ⟨⟨h.1.1.mono hgrows, h.1.2⟩, h.2.1, fun hlife => (h.2.2 hlife).mono hgrows⟩

theorem RecordOk.mono {r : HashRecord} (h : RecordOk numThreads chain r) :
    RecordOk numThreads chain' r :=
  ⟨h.1, fun hlife => (h.2 hlife).mono hgrows⟩
end

variable {s : MinerState} {testNBits : UInt32}

variable (h : MinerInv generation numThreads s)

include h in
theorem MinerInv.grow {chain : Chain} (hgrows : Grows s.chain chain)
    (hgeneration : chain.tipGeneration = generation + UInt64.ofNat chain.callbacks.length)
    (hannounced : ∀ change ∈ chain.callbacks, change < chain.tips.length) :
    MinerInv generation numThreads { s with chain := chain } where
  tipGeneration := hgeneration
  announced := hannounced
  threads t := (h.threads t).mono hgrows
  work unit hunit := (h.work unit hunit).mono hgrows
  hashes r hr := (h.hashes r hr).mono hgrows

variable {s' : MinerState}

include h in
theorem MinerInv.put {t : Nat} {thread : ThreadState}
    (hchain : s'.chain = s.chain) (hthreads : s'.threads = Function.update s.threads t thread)
    (hthread : ThreadOk generation numThreads s.chain t thread)
    (hwork : ∀ unit ∈ s'.work, UnitOk generation s.chain unit)
    (hhashes : ∀ r ∈ s'.hashes, RecordOk numThreads s.chain r) :
    MinerInv generation numThreads s' where
  tipGeneration := by rw [hchain]; exact h.tipGeneration
  announced := by rw [hchain]; exact h.announced
  threads t' := by
    rw [hchain, hthreads]
    by_cases heq : t' = t
    · rw [heq, Function.update_self]
      exact hthread
    · rw [Function.update_of_ne heq]
      exact h.threads t'
  work := by rw [hchain]; exact hwork
  hashes := by rw [hchain]; exact hhashes

include h in
theorem MinerInv.acquired {t : Nat} {work : Option WorkUnit}
    (hwork : ∀ unit ∈ work, UnitOk generation s.chain unit) :
    MinerInv generation numThreads (s.acquired t work) := by
  refine h.put rfl rfl ?_ hwork h.hashes
  cases work with
  | none => trivial
  | some unit => exact ⟨hwork unit rfl, 0, by simp⟩

include h in
theorem MinerInv.buildWork {gen : UInt64} {loadedAt : Nat}
    (hgen : GenOk generation s.chain gen loadedAt) {template : CBlockHeader} {nTime nBits : UInt32}
    {hashMerkleRoot : Uint256} :
    ∀ unit ∈ buildWork testNBits s gen loadedAt template nTime nBits hashMerkleRoot,
      UnitOk generation s.chain unit := by
  intro unit hunit
  simp only [MiningController.buildWork] at hunit
  cases htip : s.chain.tips.getLast? with
  | none => simp [htip] at hunit
  | some tip =>
    simp only [htip] at hunit
    split at hunit
    · cases hunit
    case isFalse hparent =>
      cases hunit
      have hne : s.chain.tips ≠ [] := by
        intro hnil
        simp [hnil] at htip
      have hpos := List.length_pos_iff.mpr hne
      refine ⟨hgen, s.chain.tips.length - 1, by omega, ?_, fun change hmem => ?_⟩
      · rw [← List.getLast?_eq_getElem?, htip]
        exact congrArg some (not_not.mp hparent).symm
      · have := h.announced change (List.mem_of_mem_take hmem)
        omega

include h in
theorem MinerInv.current {work : WorkUnit}
    (hwork : UnitOk generation s.chain work) (hcheck : s.chain.tipGeneration = work.generation)
    (hlife : s.chain.callbacks.length - work.loadedAt < 2 ^ 64) :
    Current s.chain.tips work.block.hashPrevBlock s.chain.callbacks.getLast? s.chain.tips.length := by
  obtain ⟨⟨hle, hgen⟩, moment, hmoment, hparent, hchange⟩ := hwork
  have hcount : work.loadedAt = s.chain.callbacks.length := by
    rw [h.tipGeneration, hgen, UInt64.add_right_inj] at hcheck
    have htoNat := congrArg UInt64.toNat hcheck
    rw [UInt64.toNat_ofNat', UInt64.toNat_ofNat'] at htoNat
    omega
  refine ⟨moment, hmoment, hparent, fun change hmem => hchange change ?_⟩
  rw [hcount, List.take_length]
  exact List.mem_of_getLast? hmem

include h in
theorem MinerInv.threadStep {t : Nat} {event : ThreadEvent}
    (hstep : threadStep numThreads testNBits s t event = some s') :
    MinerInv generation numThreads s' := by
  have hthread := h.threads t
  have hgen : GenOk generation s.chain s.chain.tipGeneration s.chain.callbacks.length :=
    ⟨le_rfl, h.tipGeneration⟩
  unfold MiningController.threadStep at hstep
  split at hstep
  case h_1 =>
    split at hstep
    · cases hstep
      exact h.put rfl rfl trivial h.work h.hashes
    · cases hstep
  case h_2 =>
    cases hwork : s.work with
    | none =>
      simp only [hwork] at hstep
      cases hstep
      exact h.put rfl rfl hgen h.work h.hashes
    | some work =>
      simp only [hwork] at hstep
      split at hstep
      · cases hstep
        refine h.acquired fun unit hunit => h.work unit ?_
        rwa [hwork]
      · cases hstep
        exact h.put rfl rfl hgen h.work h.hashes
  case h_3 =>
    cases hstep
    exact h.acquired fun unit hunit => by cases hunit
  case h_4 heq =>
    rw [heq] at hthread
    split at hstep
    · cases hstep
      exact h.put rfl rfl hthread h.work h.hashes
    · cases hstep
  case h_5 heq =>
    rw [heq] at hthread
    cases hstep
    exact h.acquired (h.buildWork hthread)
  case h_6 work nonce heq =>
    rw [heq] at hthread
    split at hstep
    · cases hstep
      exact h.put rfl rfl trivial h.work h.hashes
    case isFalse hcheck =>
      split at hstep
      · cases hstep
        exact h.put rfl rfl trivial h.work h.hashes
      · split at hstep
        · cases hstep
          exact h.put rfl rfl trivial h.work h.hashes
        case isFalse hnonce =>
          cases hstep
          refine h.put rfl rfl ⟨hthread, by omega, fun hlife => ?_⟩ h.work h.hashes
          exact h.current hthread.1 (not_not.mp hcheck) hlife
  case h_7 work nonce announced checkedAt life found heq =>
    rw [heq] at hthread
    obtain ⟨⟨hunit, k, hk⟩, hnonce, hcurrent⟩ := hthread
    cases hstep
    refine h.put rfl rfl ?_ h.work fun r hr => ?_
    · cases found with
      | true => trivial
      | false => exact ⟨hunit, k + 1, by rw [hk, Nat.succ_mul, Nat.add_assoc]⟩
    · rcases List.mem_cons.mp hr with rfl | hr
      · refine ⟨?_, hcurrent⟩
        have htoNat : (UInt32.ofNat nonce).toNat = nonce := by
          rw [UInt32.toNat_ofNat', Nat.mod_eq_of_lt]
          rw [maxNonce] at hnonce
          omega
        rw [htoNat, nonceStream, mem_nonceStreamFrom (stride_pos _)]
        exact ⟨hnonce, k, hk⟩
      · exact h.hashes r hr
  case h_8 =>
    split at hstep
    · cases hstep
      exact h.put rfl rfl trivial (fun unit hunit => by cases hunit) h.hashes
    · cases hstep
  case h_9 =>
    cases hstep
    exact h.put rfl rfl trivial h.work h.hashes
  case h_10 => cases hstep

include h in
theorem MinerInv.step (hstep : MinerStep numThreads testNBits s s') : MinerInv generation numThreads s' := by
  obtain ⟨event, hstep⟩ := hstep
  cases event with
  | tipChange tip =>
    cases hstep
    refine h.grow ⟨List.prefix_append _ _, List.prefix_rfl⟩ h.tipGeneration fun change hmem => ?_
    have := h.announced change hmem
    simp only [List.length_append]
    omega
  | callback change =>
    simp only [MiningController.step] at hstep
    split at hstep
    case isTrue hchange =>
      cases hstep
      refine h.grow ⟨List.prefix_rfl, List.prefix_append _ _⟩ ?_ fun other hmem => ?_
      · simp only [List.length_append, UInt64.ofNat_add, h.tipGeneration, UInt64.add_assoc]
        rfl
      · rcases List.mem_append.mp hmem with hmem | hmem
        · exact h.announced other hmem
        · rw [List.mem_singleton.mp hmem]
          exact hchange
    · cases hstep
  | tick us =>
    cases hstep
    exact ⟨h.tipGeneration, h.announced, h.threads, h.work, h.hashes⟩
  | thread t event =>
    simp only [MiningController.step] at hstep
    split at hstep
    · exact h.threadStep hstep
    · cases hstep

theorem MinerInv.of_reachable {tips : List Tip}
    (hreach : MinerReachable numThreads testNBits tips generation s) :
    MinerInv generation numThreads s := by
  induction hreach with
  | refl =>
    refine ⟨?_, by simp [start], fun _ => trivial, by simp [start], by simp [start]⟩
    simp [start]
  | tail _ hstep ih => exact ih.step hstep
end

/-- No interleaving hashes stale work, and the threads share out the nonces. -/
theorem mining_work_current {numThreads : Nat} (hthreads : 1 ≤ numThreads) (testNBits : UInt32)
    (tips : List Tip) (generation : UInt64) :
    (∀ s, MinerReachable numThreads testNBits tips generation s →
        ShortLives s → ∀ r ∈ s.hashes,
          Current s.chain.tips r.header.hashPrevBlock r.announced r.checkedAt ∧
            r.header.nNonce.toNat ∈ nonceStream numThreads r.thread) ∧
      (∀ i < numThreads, ∀ j < numThreads, i ≠ j →
        List.Disjoint (nonceStream numThreads i) (nonceStream numThreads j)) ∧
      ∀ nonce, nonce < 2 ^ 32 ↔ ∃ i < numThreads, nonce ∈ nonceStream numThreads i := by
  refine ⟨fun s hreach hlives r hr => ?_, fun i hi j hj hne nonce hmem hmem' => ?_, fun nonce => ?_⟩
  · obtain ⟨hnonce, hcurrent⟩ := (MinerInv.of_reachable hreach).hashes r hr
    exact ⟨hcurrent (hlives r hr), hnonce⟩
  · rw [mem_nonceStream hi] at hmem
    rw [mem_nonceStream hj] at hmem'
    exact hne (hmem.2.symm.trans hmem'.2)
  · constructor
    · intro hlt
      have hmod := Nat.mod_lt nonce hthreads
      refine ⟨nonce % numThreads, hmod, ?_⟩
      rw [mem_nonceStream hmod, maxNonce]
      exact ⟨by omega, rfl⟩
    · rintro ⟨i, hi, hmem⟩
      rw [mem_nonceStream hi, maxNonce] at hmem
      omega

theorem MinerReachable.steps {numThreads : Nat} {testNBits : UInt32} {tips : List Tip} {generation : UInt64}
    {s s' : MinerState} {events : List MinerEvent}
    (hreach : MinerReachable numThreads testNBits tips generation s)
    (hrun : events.foldlM (step numThreads testNBits) s = some s') :
    MinerReachable numThreads testNBits tips generation s' := by
  induction events generalizing s with
  | nil =>
    cases hrun
    exact hreach
  | cons event events ih =>
    obtain ⟨s₁, hstep, hrun⟩ := Option.bind_eq_some_iff.mp hrun
    exact ih (hreach.tail ⟨event, hstep⟩) hrun

def sampleTip (n : UInt8) : Tip := ⟨Uint256.fill n, n.toNat⟩

def sampleTemplate (n : UInt8) : CBlockHeader := ⟨4, Uint256.fill n, Uint256.zero, 0, 0x207fffff, 0⟩

def acquireEvents (t : Nat) (n : UInt8) : List MinerEvent :=
  [.thread t .lock, .thread t .load, .thread t (.assemble (some (sampleTemplate n))),
    .thread t (.commit 0 0x207fffff Uint256.zero)]

/-- The tip moves while the first of two threads mines. It hashes once more before
the callback and gives up after it, and the second one mines on the new tip. -/
def sampleEvents : List MinerEvent :=
  acquireEvents 0 1 ++ [.tipChange (sampleTip 2), .thread 0 .check, .thread 0 (.hash false), .callback 1,
    .thread 0 .check] ++ acquireEvents 1 2 ++ [.thread 1 .check, .thread 1 (.hash true)]

theorem mining_work_current_sample : ∃ s, MinerReachable 2 0 [sampleTip 1] 0 s ∧ ShortLives s ∧
    s.hashes.map HashRecord.announced = [some 1, none] ∧
      ∀ r ∈ s.hashes, Current s.chain.tips r.header.hashPrevBlock r.announced r.checkedAt ∧
        r.header.nNonce.toNat ∈ nonceStream 2 r.thread := by
  obtain ⟨s, hs, hlives, hannounced⟩ : ∃ s ∈ sampleEvents.foldlM (step 2 0) (start [sampleTip 1] 0),
      (∀ r ∈ s.hashes, r.life < 2 ^ 64) ∧ s.hashes.map HashRecord.announced = [some 1, none] := by decide
  have hreach : MinerReachable 2 0 [sampleTip 1] 0 s := MinerReachable.steps .refl hs
  exact ⟨s, hreach, hlives, hannounced, (mining_work_current (by decide) 0 [sampleTip 1] 0).1 s hreach hlives⟩

end MiningController

end Byze
