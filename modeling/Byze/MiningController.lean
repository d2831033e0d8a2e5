import Byze.Block
import Mathlib.Logic.Relation

/-! Mining threads that share one unit of work while the tip of the chain moves.
A thread hashes only after it has seen that no callback has announced a new
tip since its work was built. -/

namespace Byze

namespace MiningController

structure Tip where
  hash : Uint256
  height : Nat

/-- With the number of callbacks there had been when its generation was read. -/
structure WorkUnit where
  block : CBlockHeader
  generation : UInt64
  loadedAt : Nat
  builtUs : Nat
  height : Nat

/-- The active tips so far and the changes of tip that the callbacks have
announced, both in order; a change has the number of its tip. Each callback
has bumped the generation. -/
structure Chain where
  tips : List Tip
  callbacks : List Nat
  tipGeneration : UInt64

/-- Where a thread is. After the check it keeps the change of tip that was last
announced then, how many tips there were, and how many callbacks the life of the
work has seen so far. -/
inductive ThreadState where
  | idle
  | locked
  | loaded (gen : UInt64) (loadedAt : Nat)
  | assembled (gen : UInt64) (loadedAt : Nat) (template : CBlockHeader)
  | mining (work : WorkUnit) (nonce : Nat)
  | checked (work : WorkUnit) (nonce : Nat) (announced : Option Nat) (checkedAt life : Nat)
  | exhausted

/-- A hash that a thread has computed, and what was announced when it made the
check before it. -/
structure HashRecord where
  thread : Nat
  header : CBlockHeader
  announced : Option Nat
  checkedAt : Nat
  life : Nat

structure MinerState where
  chain : Chain
  nowUs : Nat
  workMutex : Option Nat
  work : Option WorkUnit
  threads : Nat → ThreadState
  hashes : List HashRecord

inductive ThreadEvent where
  | lock
  | load
  | assemble (template : Option CBlockHeader)
  | commit (nTime nBits : UInt32) (hashMerkleRoot : Uint256)
  | check
  | hash (found : Bool)
  | reset
  | leave

inductive MinerEvent where
  | tipChange (tip : Tip)
  | callback (change : Nat)
  | tick (us : Nat)
  | thread (index : Nat) (event : ThreadEvent)

def workMaxAgeUs : Nat := 60000000

def maxNonce : Nat := 2 ^ 32 - 1

section
variable (numThreads : Nat) (testNBits : UInt32)

def stride : Nat := max 1 numThreads

def MinerState.put (s : MinerState) (t : Nat) (thread : ThreadState) : MinerState :=
  { s with threads := Function.update s.threads t thread }

def MinerState.acquired (s : MinerState) (t : Nat) (work : Option WorkUnit) : MinerState :=
  { s.put t (match work with
      | none => .idle
      | some unit => .mining unit t) with
    work := work
    workMutex := none }

def buildWork (s : MinerState) (gen : UInt64) (loadedAt : Nat) (template : CBlockHeader) (nTime nBits : UInt32)
    (hashMerkleRoot : Uint256) : Option WorkUnit :=
  match s.chain.tips.getLast? with
  | none => none
  | some tip =>
    if template.hashPrevBlock ≠ tip.hash then none
    else
      some
        { block := { template with
            nTime := nTime
            nBits := if testNBits ≠ 0 then testNBits else nBits
            hashMerkleRoot := hashMerkleRoot
            nNonce := 0 }
          generation := gen
          loadedAt := loadedAt
          builtUs := s.nowUs
          height := tip.height + 1 }

def buildsOnTip (s : MinerState) (template : CBlockHeader) : Bool :=
  (s.chain.tips.getLast?).any fun tip => template.hashPrevBlock = tip.hash

def threadStep (s : MinerState) (t : Nat) (event : ThreadEvent) : Option MinerState :=
  match s.threads t, event with
  | .idle, .lock =>
    if s.workMutex = none then some { s.put t .locked with workMutex := some t } else none
  | .locked, .load =>
    let gen := s.chain.tipGeneration
    let loaded := ThreadState.loaded gen s.chain.callbacks.length
    match s.work with
    | none => some (s.put t loaded)
    | some work =>
      if work.generation = gen ∧ s.nowUs - work.builtUs < workMaxAgeUs then
        some (s.acquired t (some work))
      else some (s.put t loaded)
  | .loaded _ _, .assemble none => some (s.acquired t none)
  | .loaded gen loadedAt, .assemble (some template) =>
    if buildsOnTip s template then some (s.put t (.assembled gen loadedAt template)) else none
  | .assembled gen loadedAt template, .commit nTime nBits hashMerkleRoot =>
    some (s.acquired t (buildWork testNBits s gen loadedAt template nTime nBits hashMerkleRoot))
  | .mining work nonce, .check =>
    if s.chain.tipGeneration ≠ work.generation then some (s.put t .idle)
    else if s.nowUs - work.builtUs > workMaxAgeUs then some (s.put t .idle)
    else if nonce > maxNonce then some (s.put t .exhausted)
    else
      let life := s.chain.callbacks.length - work.loadedAt
      some (s.put t (.checked work nonce s.chain.callbacks.getLast? s.chain.tips.length life))
  | .checked work nonce announced checkedAt life, .hash found =>
    let header := { work.block with nNonce := UInt32.ofNat nonce }
    some { s.put t (if found then .idle else .mining work (nonce + stride numThreads)) with
      hashes := ⟨t, header, announced, checkedAt, life⟩ :: s.hashes }
  | .exhausted, .reset =>
    if s.workMutex = none then some { s.put t .idle with work := none } else none
  | .mining _ _, .leave => some (s.put t .idle)
  | _, _ => none

def step (s : MinerState) : MinerEvent → Option MinerState
  | .tipChange tip => some { s with chain := { s.chain with tips := s.chain.tips ++ [tip] } }
  | .callback change =>
    if change < s.chain.tips.length then
      some { s with chain :=
        { s.chain with
          callbacks := s.chain.callbacks ++ [change]
          tipGeneration := s.chain.tipGeneration + 1 } }
    else none
  | .tick us => some { s with nowUs := s.nowUs + us }
  | .thread t event => if t < numThreads then threadStep numThreads testNBits s t event else none

def start (tips : List Tip) (generation : UInt64) : MinerState :=
  ⟨⟨tips, [], generation⟩, 0, none, none, fun _ => .idle, []⟩

def MinerStep (s s' : MinerState) : Prop := ∃ event, step numThreads testNBits s event = some s'

/-- The states that some interleaving of events leads to. -/
def MinerReachable (tips : List Tip) (generation : UInt64) : MinerState → Prop :=
  Relation.ReflTransGen (MinerStep numThreads testNBits) (start tips generation)
end

def nonceStreamFrom (stride nonce : Nat) : List Nat :=
  if nonce > maxNonce ∨ stride = 0 then [] else nonce :: nonceStreamFrom stride (nonce + stride)
termination_by maxNonce + 1 - nonce

def nonceStream (numThreads t : Nat) : List Nat := nonceStreamFrom (stride numThreads) t

section
variable {numThreads t nonce : Nat}

theorem stride_pos (numThreads : Nat) : 0 < stride numThreads :=
  Nat.lt_of_lt_of_le Nat.one_pos (Nat.le_max_left 1 numThreads)

theorem mem_nonceStreamFrom {stride n : Nat} (hstride : 0 < stride) :
    n ∈ nonceStreamFrom stride nonce ↔ n ≤ maxNonce ∧ ∃ k, n = nonce + k * stride := by
  induction hleft : maxNonce + 1 - nonce using Nat.strong_induction_on generalizing nonce with
  | _ left ih =>
    rw [nonceStreamFrom]
    by_cases hend : nonce > maxNonce
    · rw [if_pos (.inl hend)]
      simp only [List.not_mem_nil, false_iff, not_and, not_exists]
      intro hle k hk
      omega
    · have hne : ¬(nonce > maxNonce ∨ stride = 0) := by omega
      rw [if_neg hne, List.mem_cons, ih _ (by omega) rfl]
      constructor
      · rintro (rfl | ⟨hle, k, rfl⟩)
        · exact ⟨by omega, 0, by simp⟩
        · exact ⟨hle, k + 1, by rw [Nat.succ_mul]; omega⟩
      · rintro ⟨hle, k, rfl⟩
        cases k with
        | zero => simp
        | succ k => exact .inr ⟨hle, k, by rw [Nat.succ_mul]; omega⟩

theorem mem_nonceStream (ht : t < numThreads) :
    nonce ∈ nonceStream numThreads t ↔ nonce ≤ maxNonce ∧ nonce % numThreads = t := by
  have hstride : stride numThreads = numThreads := Nat.max_eq_right (by omega)
  rw [nonceStream, mem_nonceStreamFrom (stride_pos _), hstride]
  refine and_congr_right fun _ => ⟨?_, fun hmod => ⟨nonce / numThreads, ?_⟩⟩
  · rintro ⟨k, rfl⟩
    rw [Nat.add_mul_mod_self_right, Nat.mod_eq_of_lt ht]
  · rw [← hmod, Nat.mul_comm]
    exact (Nat.mod_add_div nonce numThreads).symm
end

end MiningController

end Byze
