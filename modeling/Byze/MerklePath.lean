import Byze.Merkle

/-! Merkle paths are computed in one pass over the leaves that keeps one hash for
each bit of a counter, and a sweep up the right edge of the tree at the end. The
path of a leaf leads to the root that `ComputeMerkleRoot` builds level by level. -/

namespace Byze
open MerkleTree

/-- Where the pass stands on its way up: a subtree hash, whether the wanted leaf
is below it, and the path so far. -/
structure MerkleWalk where
  level : Nat
  hash : Uint256
  matchh : Bool
  path : List Uint256

structure MerkleState where
  count : Nat
  inner : Vector Uint256 32
  matchlevel : Option Nat
  path : List Uint256

def innerAt (inner : Vector Uint256 32) (level : Nat) : Uint256 := inner[level]?.getD Uint256.zero

section
variable (h : Hashes)

/-- Both loops that go up while bit `level` of the counter is zero. The counter
is not zero, so a set bit is met before level 32. -/
def combineUp (count : Nat) (inner : Vector Uint256 32) (matchlevel : Option Nat) :
    Nat → MerkleWalk → MerkleWalk
  | 0, w => w
  | fuel + 1, w =>
    if count.testBit w.level then w
    else
      combineUp count inner matchlevel fuel
        { level := w.level + 1
          hash := merklePair h (innerAt inner w.level) w.hash
          matchh := w.matchh || matchlevel = some w.level
          path :=
            if w.matchh then w.path ++ [innerAt inner w.level]
            else if matchlevel = some w.level then w.path ++ [w.hash]
            else w.path }

def addLeaf (leafPos : Nat) (st : MerkleState) (leaf : Uint256) : MerkleState :=
  let count := (st.count + 1) % 2 ^ 32
  let w := combineUp h count st.inner st.matchlevel 32 ⟨0, leaf, st.count = leafPos, st.path⟩
  { count := count
    inner := st.inner.setIfInBounds w.level w.hash
    matchlevel := if w.matchh then some w.level else st.matchlevel
    path := w.path }

def lowestLevel (count : Nat) : Nat → Nat → Nat
  | 0, level => level
  | fuel + 1, level => if count.testBit level then level else lowestLevel count fuel (level + 1)

def sweepUp (inner : Vector Uint256 32) (matchlevel : Option Nat) :
    Nat → Nat → MerkleWalk → MerkleWalk
  | 0, _, w => w
  | fuel + 1, count, w =>
    if count = 2 ^ w.level then w
    else
      let path := if w.matchh then w.path ++ [w.hash] else w.path
      let count := (count + 2 ^ w.level) % 2 ^ 32
      sweepUp inner matchlevel fuel count
        (combineUp h count inner matchlevel 32
          ⟨w.level + 1, merklePair h w.hash w.hash, w.matchh, path⟩)

def merkleComputation (leaves : List Uint256) (leafPos : Nat) : List Uint256 :=
  if leaves = [] then []
  else
    let st := leaves.foldl (addLeaf h leafPos) ⟨0, Vector.replicate 32 Uint256.zero, none, []⟩
    let level := lowestLevel st.count 32 0
    (sweepUp h st.inner st.matchlevel 32 st.count
      ⟨level, innerAt st.inner level, st.matchlevel = some level, st.path⟩).path

def computeMerklePath (leaves : List Uint256) (position : Nat) : List Uint256 :=
  merkleComputation h leaves position

def transactionMerklePath (vtx : List CTransaction) (position : Nat) : List Uint256 :=
  computeMerklePath h (vtx.map (CTransaction.getHash h)) position

def computeMerkleRootFromBranch (leaf : Uint256) : List Uint256 → Nat → Uint256
  | [], _ => leaf
  | s :: branch, nIndex =>
    computeMerkleRootFromBranch
      (if nIndex % 2 = 1 then merklePair h s leaf else merklePair h leaf s) branch (nIndex / 2)

theorem computeMerkleRootFromBranch_eq (leaf : Uint256) (branch : List Uint256) (nIndex : Nat) :
    computeMerkleRootFromBranch h leaf branch nIndex =
      climb (merklePair h) leaf branch nIndex := by
  induction branch generalizing leaf nIndex with
  | nil => rfl
  | cons s branch ih => rw [computeMerkleRootFromBranch, ih, climb, stepUp]
end

section
variable {c k : Nat}

theorem testBit_iff : c.testBit k = true ↔ c / 2 ^ k % 2 = 1 := by
  rw [Nat.testBit_eq_decide_div_mod_eq, decide_eq_true_iff]

theorem even_of_testBit (hzero : c.testBit k = false) : c / 2 ^ k % 2 = 0 := by
  rw [Nat.testBit_eq_decide_div_mod_eq, decide_eq_false_iff_not] at hzero
  omega

theorem testBit_lt {b : Nat} (hc : c < 2 ^ b) (hbit : c.testBit k = true) : k < b :=
  (Nat.pow_lt_pow_iff_right (by omega)).mp (lt_of_le_of_lt (Nat.ge_two_pow_of_testBit hbit) hc)

theorem div_two_pow_succ (c k : Nat) : c / 2 ^ (k + 1) = c / 2 ^ k / 2 := by
  rw [Nat.pow_succ, Nat.div_div_eq_div_mul]

theorem div_two_pow_eq_of_lt {p j : Nat} (h : p / 2 ^ k / 2 = c / 2 ^ k / 2) (hlt : k < j) :
    p / 2 ^ j = c / 2 ^ j := by
  obtain ⟨i, rfl⟩ := Nat.exists_eq_add_of_lt hlt
  rw [Nat.add_right_comm, Nat.pow_add, ← Nat.div_div_eq_div_mul, ← Nat.div_div_eq_div_mul,
    div_two_pow_succ, div_two_pow_succ, h]

def roundUp (c k : Nat) : Nat := (c / 2 ^ k + 1) * 2 ^ k

theorem testBit_roundUp (c k : Nat) : (roundUp c k).testBit k = !c.testBit k := by
  rw [Nat.testBit_eq_decide_div_mod_eq, Nat.testBit_eq_decide_div_mod_eq, roundUp]
  rcases Nat.mod_two_eq_zero_or_one (c / 2 ^ k) with hbit | hbit <;>
    simp [hbit, Nat.add_mod]

theorem roundUp_succ (hbit : c.testBit k = true) : roundUp c (k + 1) = roundUp c k := by
  rw [testBit_iff] at hbit
  rw [roundUp, div_two_pow_succ, Nat.pow_succ, Nat.mul_comm (2 ^ k) 2, ← Nat.mul_assoc]
  congr 1
  omega

def MatchAt (c p m : Nat) : Prop := c.testBit m = true ∧ p / 2 ^ m + 1 = c / 2 ^ m

theorem MatchAt.div_eq {p m : Nat} (hmatch : MatchAt c p m) (hlt : m < k) :
    p / 2 ^ k = c / 2 ^ k := by
  obtain ⟨hbit, hdiv⟩ := hmatch
  rw [testBit_iff] at hbit
  exact div_two_pow_eq_of_lt (by omega) hlt

theorem MatchAt.unique {p m : Nat} (hm : MatchAt c p m) (hk : MatchAt c p k) : m = k := by
  have hmdiv := hm.2
  have hkdiv := hk.2
  rcases Nat.lt_trichotomy m k with hlt | heq | hlt
  · have heq := hm.div_eq hlt
    omega
  · exact heq
  · have heq := hk.div_eq hlt
    omega
end

section
variable {h : Hashes} {leaves : List Uint256} {p c : Nat}

/-- What the pass keeps after `c` leaves: the full subtree of each bit of `c`,
and the path up to the one that has leaf `p`. -/
structure PassKeeps (h : Hashes) (leaves : List Uint256) (p c : Nat) (inner : Vector Uint256 32)
    (matchlevel : Option Nat) (path : List Uint256) : Prop where
  node : ∀ j, c.testBit j = true →
    IsNode (merklePair h) leaves j (c / 2 ^ j - 1) (innerAt inner j)
  found : p < c → ∃ m, matchlevel = some m ∧ MatchAt c p m ∧
    Siblings (merklePair h) leaves p m path
  waiting : c ≤ p → matchlevel = none ∧ path = []

structure WalkAt (h : Hashes) (leaves : List Uint256) (p c : Nat) (before : List Uint256)
    (w : MerkleWalk) : Prop where
  node : IsNode (merklePair h) leaves w.level (c / 2 ^ w.level) w.hash
  below : w.matchh = true → p / 2 ^ w.level = c / 2 ^ w.level ∧
    Siblings (merklePair h) leaves p w.level w.path
  beside : w.matchh = false → p / 2 ^ w.level ≠ c / 2 ^ w.level ∧ w.path = before

variable {inner : Vector Uint256 32} {matchlevel : Option Nat} {before : List Uint256} {k : Nat}

section
variable (hkeeps : PassKeeps h leaves p c inner matchlevel before)
include hkeeps

theorem PassKeeps.matchlevel_eq : matchlevel = some k ↔ MatchAt c p k := by
  by_cases hp : p < c
  · obtain ⟨m, hm, hmatch, -⟩ := hkeeps.found hp
    rw [hm, Option.some_inj]
    exact ⟨fun heq => heq ▸ hmatch, hmatch.unique⟩
  · rw [(hkeeps.waiting (by omega)).1]
    constructor
    · simp
    · intro hmatch
      have hdiv := hmatch.2
      have hle := Nat.div_le_div_right (c := 2 ^ k) (show c ≤ p by omega)
      omega

theorem PassKeeps.siblings (hmatch : MatchAt c p k) : Siblings (merklePair h) leaves p k before := by
  have hp : p < c := by
    by_contra hle
    have hsome := hkeeps.matchlevel_eq.mpr hmatch
    rw [(hkeeps.waiting (by omega)).1] at hsome
    exact absurd hsome (by simp)
  obtain ⟨m, -, hm, hpath⟩ := hkeeps.found hp
  rwa [hm.unique hmatch] at hpath

variable {w : MerkleWalk}

theorem walkAt_step (hw : WalkAt h leaves p c before w) (hbit : c.testBit w.level = true) :
    WalkAt h leaves p c before
      { level := w.level + 1
        hash := merklePair h (innerAt inner w.level) w.hash
        matchh := w.matchh || matchlevel = some w.level
        path :=
          if w.matchh then w.path ++ [innerAt inner w.level]
          else if matchlevel = some w.level then w.path ++ [w.hash]
          else w.path } := by
  have hodd := testBit_iff.mp hbit
  have hleft := hkeeps.node _ hbit
  have hright := hw.node
  have hindex : c / 2 ^ w.level = 2 * (c / 2 ^ w.level / 2) + 1 := by omega
  have hparent : IsNode (merklePair h) leaves (w.level + 1) (c / 2 ^ (w.level + 1))
      (merklePair h (innerAt inner w.level) w.hash) := by
    rw [div_two_pow_succ]
    rw [hindex] at hleft hright
    exact IsNode.parent hleft hright
  cases hmatchh : w.matchh with
  | true =>
    obtain ⟨hdiv, hpath⟩ := hw.below hmatchh
    refine ⟨hparent, fun _ => ⟨?_, ?_⟩, by simp⟩
    · simp [div_two_pow_succ, hdiv]
    · refine hpath.up ?_
      rw [IsSibling, hdiv, if_pos hodd]
      exact hleft
  | false =>
    obtain ⟨hdiv, hpath⟩ := hw.beside hmatchh
    by_cases hlevel : matchlevel = some w.level
    · have hmatch := hkeeps.matchlevel_eq.mp hlevel
      refine ⟨hparent, fun _ => ⟨hmatch.div_eq (by simp), ?_⟩, by simp [hlevel]⟩
      simp only [hlevel, if_true, Bool.false_eq_true, if_false, hpath]
      refine (hkeeps.siblings hmatch).up ?_
      have hdiv' := hmatch.2
      have hlt := hright.lt
      rw [IsSibling, if_neg (by omega), hdiv', if_pos hlt]
      exact hright
    · have hnot : ¬ MatchAt c p w.level := fun hm => hlevel (hkeeps.matchlevel_eq.mpr hm)
      refine ⟨hparent, by simp [hlevel], fun _ => ⟨?_, by simpa [hlevel] using hpath⟩⟩
      intro heq
      rw [div_two_pow_succ, div_two_pow_succ] at heq
      exact hnot ⟨hbit, by omega⟩

theorem combineUp_spec (fuel : Nat) {count : Nat} (hc : c < 2 ^ 31) (hfuel : 31 ≤ w.level + fuel)
    (hcount : count = roundUp c w.level) (hw : WalkAt h leaves p c before w) :
    WalkAt h leaves p c before (combineUp h count inner matchlevel fuel w) ∧
    c.testBit (combineUp h count inner matchlevel fuel w).level = false ∧
    count = roundUp c (combineUp h count inner matchlevel fuel w).level ∧
    w.level ≤ (combineUp h count inner matchlevel fuel w).level ∧
    ∀ j, w.level ≤ j → j < (combineUp h count inner matchlevel fuel w).level →
      c.testBit j = true := by
  induction fuel generalizing w with
  | zero =>
    have hzero : c.testBit w.level = false := by
      by_contra hbit
      have hlt := testBit_lt hc (by simpa using hbit)
      omega
    exact ⟨hw, hzero, hcount, le_rfl, fun j hle hlt => absurd hlt (by simp [combineUp]; omega)⟩
  | succ fuel ih =>
    rw [combineUp]
    cases hbit : c.testBit w.level with
    | false =>
      rw [if_pos (by rw [hcount, testBit_roundUp, hbit]; rfl)]
      exact ⟨hw, hbit, hcount, le_rfl, fun j hle hlt => absurd hlt (by omega)⟩
    | true =>
      rw [if_neg (by rw [hcount, testBit_roundUp, hbit]; simp)]
      have hnext := walkAt_step hkeeps hw hbit
      obtain ⟨hend, hzero, hround, hle, hbits⟩ := ih (w := { level := w.level + 1, .. })
        (by simp only; omega) (hcount.trans (roundUp_succ hbit).symm) hnext
      refine ⟨hend, hzero, hround, by simp only at hle; omega, fun j hj hlt => ?_⟩
      by_cases heq : j = w.level
      · rw [heq, hbit]
      · exact hbits j (by simp only; omega) hlt
end

theorem succ_eq_roundUp (hround : c + 1 = roundUp c k) :
    (c + 1) / 2 ^ k = c / 2 ^ k + 1 := by
  simp [hround, roundUp]

theorem succ_div_of_lt {j : Nat} (hround : c + 1 = roundUp c k) (hzero : c.testBit k = false)
    (hlt : k < j) : (c + 1) / 2 ^ j = c / 2 ^ j := by
  have heven := even_of_testBit hzero
  refine div_two_pow_eq_of_lt ?_ hlt
  rw [succ_eq_roundUp hround]
  omega

theorem succ_testBit_of_lt {j : Nat} (hround : c + 1 = roundUp c k) (hlt : j < k) :
    (c + 1).testBit j = false := by
  rw [hround, roundUp, Nat.testBit_mul_two_pow]
  simp
  omega

theorem innerAt_setIfInBounds (hk : k < 32) (a : Uint256) (j : Nat) :
    innerAt (inner.setIfInBounds k a) j = if k = j then a else innerAt inner j := by
  rw [innerAt]
  by_cases heq : k = j
  · simp [heq, heq ▸ hk]
  · simp [heq, innerAt]

theorem passKeeps_addLeaf {st : MerkleState} {leaf : Uint256}
    (hkeeps : PassKeeps h leaves p c st.inner st.matchlevel st.path) (hcount : st.count = c)
    (hc : c < 2 ^ 31) (hleaf : leaves[c]? = some leaf) :
    (addLeaf h p st leaf).count = c + 1 ∧
    PassKeeps h leaves p (c + 1) (addLeaf h p st leaf).inner (addLeaf h p st leaf).matchlevel
      (addLeaf h p st leaf).path := by
  have hsucc : (st.count + 1) % 2 ^ 32 = c + 1 := by rw [hcount]; omega
  have hstart : WalkAt h leaves p c st.path ⟨0, leaf, st.count = p, st.path⟩ := by
    refine ⟨by simpa [IsNode] using hleaf, ?_, ?_⟩
    · intro heq
      have heq : c = p := by simpa [hcount] using heq
      refine ⟨by simp [heq], ?_⟩
      simp only [(hkeeps.waiting heq.le).2]
      exact .leaf
    · intro hne
      have hne : ¬ c = p := by simpa [hcount] using hne
      exact ⟨by simpa using fun heq : p = c => hne heq.symm, rfl⟩
  have hcarry : c + 1 = roundUp c 0 := by simp [roundUp]
  obtain ⟨hend, hzero, hround, -, hbits⟩ :=
    combineUp_spec hkeeps 32 hc (by simp) hcarry hstart
  simp only [addLeaf, hsucc]
  generalize combineUp h (c + 1) st.inner st.matchlevel 32 ⟨0, leaf, st.count = p, st.path⟩ = w at *
  have hlevel : w.level < 32 := by
    by_contra hge
    have hlt := testBit_lt hc (hbits (w.level - 1) (by simp) (by omega))
    omega
  have hdiv := succ_eq_roundUp hround
  refine ⟨trivial, ?_, ?_, ?_⟩
  · intro j hj
    rw [innerAt_setIfInBounds hlevel]
    rcases Nat.lt_trichotomy w.level j with hlt | heq | hlt
    · have hsame := succ_div_of_lt hround hzero hlt
      rw [testBit_iff, hsame, ← testBit_iff] at hj
      rw [if_neg (by omega), hsame]
      exact hkeeps.node j hj
    · rw [if_pos heq, ← heq, hdiv]
      exact hend.node
    · rw [succ_testBit_of_lt hround hlt] at hj
      exact absurd hj (by simp)
  · intro hp
    cases hmatchh : w.matchh with
    | true =>
      obtain ⟨hsame, hpath⟩ := hend.below hmatchh
      refine ⟨w.level, rfl, ⟨?_, by omega⟩, hpath⟩
      rw [hround, testBit_roundUp, hzero]
      rfl
    | false =>
      obtain ⟨hother, hpath⟩ := hend.beside hmatchh
      have hpc : p ≠ c := fun heq => hother (by rw [heq])
      obtain ⟨m, hm, hmatch, hsiblings⟩ := hkeeps.found (by omega)
      have hlt : w.level < m := by
        by_contra hge
        rcases Nat.lt_or_eq_of_le (Nat.le_of_not_lt hge) with hlt | heq
        · exact hother (hmatch.div_eq hlt)
        · rw [← heq, hmatch.1] at hzero
          exact absurd hzero (by simp)
      have hsame := succ_div_of_lt hround hzero hlt
      refine ⟨m, by simpa using hm, ⟨?_, by rw [hsame]; exact hmatch.2⟩, by rwa [hpath]⟩
      rw [testBit_iff, hsame, ← testBit_iff]
      exact hmatch.1
  · intro hp
    obtain ⟨hnone, hnil⟩ := hkeeps.waiting (by omega)
    have hmatchh : w.matchh = false := by
      by_contra hmatchh
      obtain ⟨hsame, -⟩ := hend.below (by simpa using hmatchh)
      have hle := Nat.div_le_div_right (c := 2 ^ w.level) hp
      omega
    exact ⟨by simpa [hmatchh] using hnone, by rw [(hend.beside hmatchh).2, hnil]⟩

theorem passKeeps_empty : PassKeeps h leaves p 0 inner none [] :=
  ⟨fun j hj => by simp at hj, fun hp => by omega, fun _ => ⟨rfl, rfl⟩⟩

theorem passKeeps_foldl {done rest : List Uint256} {st : MerkleState} (hleaves : leaves = done ++ rest)
    (hsize : leaves.length ≤ 2 ^ 31) (hcount : st.count = done.length)
    (hkeeps : PassKeeps h leaves p done.length st.inner st.matchlevel st.path) :
    (rest.foldl (addLeaf h p) st).count = leaves.length ∧
    PassKeeps h leaves p leaves.length (rest.foldl (addLeaf h p) st).inner
      (rest.foldl (addLeaf h p) st).matchlevel (rest.foldl (addLeaf h p) st).path := by
  induction rest generalizing done st with
  | nil =>
    have hlength : leaves.length = done.length := by simp [hleaves]
    rw [hlength]
    exact ⟨hcount, hkeeps⟩
  | cons leaf rest ih =>
    have hlength : leaves.length = done.length + (rest.length + 1) := by simp [hleaves]
    have hleaf : leaves[done.length]? = some leaf := by simp [hleaves]
    obtain ⟨hcount', hkeeps'⟩ := passKeeps_addLeaf hkeeps hcount (by omega) hleaf
    have hdone : done.length + 1 = (done ++ [leaf]).length := by simp
    rw [hdone] at hcount' hkeeps'
    exact ih (by simp [hleaves]) hcount' hkeeps'

theorem mod_two_pow_succ_eq_zero {n k : Nat} (hmod : n % 2 ^ k = 0) (hbit : n.testBit k = false) :
    n % 2 ^ (k + 1) = 0 := by
  rw [Nat.mod_pow_succ, hmod, even_of_testBit hbit, Nat.mul_zero]

theorem mod_two_pow_ne_zero {n k j : Nat} (hmod : n % 2 ^ k ≠ 0) (hle : k ≤ j) :
    n % 2 ^ j ≠ 0 := fun hzero =>
  hmod (Nat.mod_eq_zero_of_dvd ((Nat.pow_dvd_pow 2 hle).trans (Nat.dvd_of_mod_eq_zero hzero)))

theorem lowestLevel_spec {n fuel level : Nat} (hpos : n ≠ 0) (hn : n < 2 ^ 32)
    (hfuel : 32 ≤ level + fuel) (hmod : n % 2 ^ level = 0) :
    n.testBit (lowestLevel n fuel level) = true ∧ n % 2 ^ lowestLevel n fuel level = 0 := by
  induction fuel generalizing level with
  | zero =>
    have hbound : 2 ^ 32 ≤ 2 ^ level := Nat.pow_le_pow_right (by omega) (by omega)
    rw [Nat.mod_eq_of_lt (by omega)] at hmod
    exact absurd hmod hpos
  | succ fuel ih =>
    rw [lowestLevel]
    cases hbit : n.testBit level with
    | true => simpa using ⟨hbit, hmod⟩
    | false => simpa using ih (by omega) (mod_two_pow_succ_eq_zero hmod hbit)

theorem levelLength_of_dvd (hmod : leaves.length % 2 ^ k = 0) :
    ((level (merklePair h))^[k] leaves).length = leaves.length / 2 ^ k := by
  have hpos := Nat.two_pow_pos k
  have hdiv := Nat.div_add_mod leaves.length (2 ^ k)
  rw [length_iterate_level, Nat.div_eq_iff hpos, Nat.mul_comm]
  omega

theorem levelLength_of_not_dvd (hmod : leaves.length % 2 ^ k ≠ 0) :
    ((level (merklePair h))^[k] leaves).length = leaves.length / 2 ^ k + 1 := by
  have hpos := Nat.two_pow_pos k
  have hdiv := Nat.div_add_mod leaves.length (2 ^ k)
  rw [length_iterate_level, Nat.div_eq_iff hpos, Nat.add_mul, Nat.mul_comm]
  omega

structure SweepAt (h : Hashes) (leaves : List Uint256) (p : Nat) (before : List Uint256)
    (count last : Nat) (w : MerkleWalk) : Prop where
  length : ((level (merklePair h))^[w.level] leaves).length = last + 1
  count : count = (last + 1) * 2 ^ w.level
  even : last % 2 = 0
  half : last / 2 = leaves.length / 2 ^ (w.level + 1)
  rest : leaves.length % 2 ^ (w.level + 1) ≠ 0
  depth : w.level ≤ MerkleTree.depth leaves
  node : IsNode (merklePair h) leaves w.level last w.hash
  below : w.matchh = true → p / 2 ^ w.level = last ∧
    Siblings (merklePair h) leaves p w.level w.path
  beside : w.matchh = false → p / 2 ^ w.level ≠ last ∧ w.path = before

variable {count last : Nat} {w : MerkleWalk}

section
variable (hsweep : SweepAt h leaves p before count last w)
include hsweep

theorem SweepAt.div_le (hp : p < leaves.length) : p / 2 ^ w.level ≤ last := by
  have hlength := hsweep.length
  have hpos := Nat.two_pow_pos w.level
  rw [length_iterate_level] at hlength
  have hle : p / 2 ^ w.level < (leaves.length + (2 ^ w.level - 1)) / 2 ^ w.level := by
    rw [Nat.lt_iff_add_one_le, ← Nat.add_div_right _ hpos]
    exact Nat.div_le_div_right (by omega)
  omega

theorem SweepAt.two_pow_lt (hlast : last ≠ 0) : 2 ^ (w.level + 1) < leaves.length := by
  have heven := hsweep.even
  have hhalf := hsweep.half
  have hone : 1 ≤ leaves.length / 2 ^ (w.level + 1) := by omega
  have hle := (Nat.le_div_iff_mul_le (Nat.two_pow_pos _)).mp hone
  refine lt_of_le_of_ne (by omega) fun heq => hsweep.rest ?_
  rw [← heq]
  exact Nat.mod_self _

theorem SweepAt.pair_self (hp : p < leaves.length) : WalkAt h leaves p leaves.length before
      ⟨w.level + 1, merklePair h w.hash w.hash, w.matchh,
        if w.matchh then w.path ++ [w.hash] else w.path⟩ := by
  have heven := hsweep.even
  have hlength := hsweep.length
  have hnode := hsweep.node
  have hle := hsweep.div_le hp
  refine ⟨?_, ?_, ?_⟩
  · rw [show last = 2 * (last / 2) by omega] at hnode hlength
    rw [← hsweep.half]
    exact hnode.parent_of_last hlength
  · intro hmatchh
    simp only at hmatchh
    obtain ⟨hdiv, hpath⟩ := hsweep.below hmatchh
    refine ⟨by rw [← hsweep.half, div_two_pow_succ, hdiv], ?_⟩
    simp only [hmatchh]
    refine hpath.up ?_
    rw [IsSibling, hdiv, if_neg (by omega), if_neg (by omega)]
    exact hsweep.node
  · intro hmatchh
    simp only at hmatchh
    obtain ⟨hdiv, hpath⟩ := hsweep.beside hmatchh
    refine ⟨?_, by simpa [hmatchh] using hpath⟩
    rw [← hsweep.half, div_two_pow_succ]
    omega
end

theorem WalkAt.sweepAt (hw : WalkAt h leaves p leaves.length before w)
    (hzero : leaves.length.testBit w.level = false) (hcount : count = roundUp leaves.length w.level)
    (hrest : leaves.length % 2 ^ w.level ≠ 0) (hdepth : w.level ≤ MerkleTree.depth leaves) :
    SweepAt h leaves p before count (leaves.length / 2 ^ w.level) w where
  length := levelLength_of_not_dvd hrest
  count := hcount
  even := even_of_testBit hzero
  half := (div_two_pow_succ _ _).symm
  rest := mod_two_pow_ne_zero hrest (Nat.le_succ _)
  depth := hdepth
  node := hw.node
  below := hw.below
  beside := hw.beside

theorem SweepAt.next (hkeeps : PassKeeps h leaves p leaves.length inner matchlevel before)
    (hsize : leaves.length ≤ 2 ^ 31) (hp : p < leaves.length)
    (hsweep : SweepAt h leaves p before count last w) (hlast : last ≠ 0) :
    ∃ last', SweepAt h leaves p before ((count + 2 ^ w.level) % 2 ^ 32) last'
      (combineUp h ((count + 2 ^ w.level) % 2 ^ 32) inner matchlevel 32
        ⟨w.level + 1, merklePair h w.hash w.hash, w.matchh,
          if w.matchh then w.path ++ [w.hash] else w.path⟩) ∧
      w.level < (combineUp h ((count + 2 ^ w.level) % 2 ^ 32) inner matchlevel 32
        ⟨w.level + 1, merklePair h w.hash w.hash, w.matchh,
          if w.matchh then w.path ++ [w.hash] else w.path⟩).level := by
  have hlt := hsweep.two_pow_lt hlast
  have hround : count + 2 ^ w.level = roundUp leaves.length (w.level + 1) := by
    have heven := hsweep.even
    rw [hsweep.count, roundUp, ← hsweep.half, Nat.pow_succ, Nat.mul_comm (2 ^ w.level) 2,
      ← Nat.mul_assoc, ← Nat.succ_mul]
    congr 1
    omega
  have hlevel : w.level + 1 < 31 :=
    (Nat.pow_lt_pow_iff_right (by omega)).mp (lt_of_lt_of_le hlt hsize)
  have hsmall : roundUp leaves.length (w.level + 1) < 2 ^ 32 := by
    have hle : (leaves.length / 2 ^ (w.level + 1)) * 2 ^ (w.level + 1) ≤ leaves.length :=
      Nat.div_mul_le_self _ _
    rw [roundUp, Nat.add_mul]
    omega
  have hlength : leaves.length < 2 ^ 31 := by
    refine lt_of_le_of_ne hsize fun heq => hsweep.rest ?_
    rw [heq]
    exact Nat.mod_eq_zero_of_dvd (Nat.pow_dvd_pow 2 hlevel.le)
  rw [hround, Nat.mod_eq_of_lt hsmall]
  obtain ⟨hend, hzero, hcount, hle, hbits⟩ :=
    combineUp_spec hkeeps 32 hlength (by simp only; omega) rfl (hsweep.pair_self hp)
  generalize combineUp h (roundUp leaves.length (w.level + 1)) inner matchlevel 32 _ = w' at *
  have hrest := mod_two_pow_ne_zero hsweep.rest hle
  have hbelow : 2 ^ (w'.level - 1) < leaves.length := by
    by_cases heq : w'.level = w.level + 1
    · rw [heq, Nat.add_sub_cancel]
      exact lt_of_le_of_lt (Nat.pow_le_pow_right (by omega) (Nat.le_succ _)) hlt
    · simp only at hle hbits
      have hbit := hbits (w'.level - 1) (by omega) (by omega)
      refine lt_of_le_of_ne (Nat.ge_two_pow_of_testBit hbit) fun hpow => ?_
      refine mod_two_pow_ne_zero hsweep.rest (show w.level + 1 ≤ w'.level - 1 by omega) ?_
      rw [← hpow]
      exact Nat.mod_self _
  have hdepth := (Nat.lt_clog_iff_pow_lt (by omega)).mpr hbelow
  exact ⟨_, hend.sweepAt hzero hcount hrest (by rw [MerkleTree.depth]; omega), hle⟩

theorem SweepAt.siblings (hp : p < leaves.length) (hsweep : SweepAt h leaves p before count 0 w) :
    Siblings (merklePair h) leaves p (MerkleTree.depth leaves) w.path := by
  have hdiv := hsweep.div_le hp
  have hlevel : w.level = MerkleTree.depth leaves := by
    refine le_antisymm hsweep.depth ?_
    by_contra hlt
    have hlength := one_lt_length_iterate (merklePair h) (Nat.lt_of_not_le hlt)
    rw [hsweep.length] at hlength
    omega
  cases hmatchh : w.matchh with
  | false => exact absurd (Nat.le_zero.mp hdiv) (hsweep.beside hmatchh).1
  | true =>
    rw [← hlevel]
    exact (hsweep.below hmatchh).2

theorem sweepUp_siblings (hkeeps : PassKeeps h leaves p leaves.length inner matchlevel before)
    (hsize : leaves.length ≤ 2 ^ 31) (hp : p < leaves.length) {fuel : Nat}
    (hfuel : 31 ≤ w.level + fuel) (hsweep : SweepAt h leaves p before count last w) :
    Siblings (merklePair h) leaves p (MerkleTree.depth leaves)
      (sweepUp h inner matchlevel fuel count w).path := by
  induction fuel generalizing count last w with
  | zero =>
    have hlast : last = 0 := by
      by_contra hlast
      have hlt := lt_of_lt_of_le (hsweep.two_pow_lt hlast) hsize
      have hlevel := (Nat.pow_lt_pow_iff_right (by omega)).mp hlt
      omega
    subst hlast
    exact hsweep.siblings hp
  | succ fuel ih =>
    rw [sweepUp]
    by_cases hlast : last = 0
    · subst hlast
      rw [if_pos (by rw [hsweep.count]; simp)]
      exact hsweep.siblings hp
    · have hne : count ≠ 2 ^ w.level := by
        intro heq
        have hcount := hsweep.count
        rw [heq] at hcount
        have hone := Nat.eq_of_mul_eq_mul_right (Nat.two_pow_pos w.level)
          ((Nat.one_mul _).trans hcount)
        omega
      rw [if_neg hne]
      obtain ⟨last', hnext, hlevel⟩ := hsweep.next hkeeps hsize hp hlast
      exact ih (by omega) hnext

theorem PassKeeps.sweepAt {path : List Uint256} {level : Nat}
    (hkeeps : PassKeeps h leaves p leaves.length inner matchlevel path)
    (hbit : leaves.length.testBit level = true) (hmod : leaves.length % 2 ^ level = 0) :
    SweepAt h leaves p path leaves.length (leaves.length / 2 ^ level - 1)
      ⟨level, innerAt inner level, matchlevel = some level, path⟩ := by
  have hodd := testBit_iff.mp hbit
  have hone : leaves.length / 2 ^ level - 1 + 1 = leaves.length / 2 ^ level :=
    Nat.sub_add_cancel (Nat.one_le_iff_ne_zero.mpr fun hzero => by simp [hzero] at hodd)
  refine ⟨?_, ?_, ?_, ?_, ?_, ?_, hkeeps.node level hbit, ?_, ?_⟩
  · rw [hone]
    exact levelLength_of_dvd hmod
  · rw [hone]
    exact (Nat.div_mul_cancel (Nat.dvd_of_mod_eq_zero hmod)).symm
  · omega
  · rw [div_two_pow_succ]
    generalize leaves.length / 2 ^ level = q at hodd
    omega
  · intro hzero
    rw [Nat.mod_pow_succ, hodd, hmod, Nat.zero_add, Nat.mul_one] at hzero
    exact absurd hzero (Nat.two_pow_pos level).ne'
  · by_contra hlt
    have hle := Nat.le_pow_clog (show 1 < 2 by omega) leaves.length
    have hpow : 2 ^ Nat.clog 2 leaves.length < 2 ^ level :=
      Nat.pow_lt_pow_right (by omega) (Nat.lt_of_not_le hlt)
    have hge := Nat.ge_two_pow_of_testBit hbit
    omega
  · intro hmatchh
    have hmatch := hkeeps.matchlevel_eq.mp (by simpa using hmatchh)
    exact ⟨Nat.eq_sub_of_add_eq hmatch.2, hkeeps.siblings hmatch⟩
  · intro hmatchh
    have hnot : ¬ MatchAt leaves.length p level := fun hmatch => by
      simp [hkeeps.matchlevel_eq.mpr hmatch] at hmatchh
    exact ⟨fun heq => hnot ⟨hbit, by rw [heq, hone]⟩, rfl⟩
end

theorem computeMerklePath_siblings (h : Hashes) {leaves : List Uint256} {position : Nat}
    (hsize : leaves.length ≤ 2 ^ 31) (hposition : position < leaves.length) :
    Siblings (merklePair h) leaves position (MerkleTree.depth leaves)
      (computeMerklePath h leaves position) := by
  have hne : leaves ≠ [] := List.ne_nil_of_length_pos (by omega)
  rw [computeMerklePath, merkleComputation, if_neg hne]
  have hstart : PassKeeps h leaves position ([] : List Uint256).length
      (Vector.replicate 32 Uint256.zero) none [] := passKeeps_empty
  obtain ⟨hcount, hkeeps⟩ := @passKeeps_foldl h leaves position [] leaves
    ⟨0, Vector.replicate 32 Uint256.zero, none, []⟩ rfl hsize rfl hstart
  obtain ⟨hbit, hmod⟩ := @lowestLevel_spec leaves.length 32 0 (by omega) (by omega) (by omega)
    (by simp [Nat.mod_one])
  simp only [hcount]
  exact sweepUp_siblings hkeeps hsize hposition (by simp only; omega) (hkeeps.sweepAt hbit hmod)

/-- The leaf at a position and its path give the root. -/
theorem computeMerkleRootFromBranch_path (h : Hashes) {leaves : List Uint256} {position : Nat}
    {leaf : Uint256} (hsize : leaves.length ≤ 2 ^ 31) (hleaf : leaves[position]? = some leaf) :
    computeMerkleRootFromBranch h leaf (computeMerklePath h leaves position) position =
      (computeMerkleRoot h leaves).1 := by
  obtain ⟨hposition, -⟩ := List.getElem?_eq_some_iff.mp hleaf
  have hne : leaves ≠ [] := List.ne_nil_of_length_pos (by omega)
  have hnode := (computeMerklePath_siblings h hsize hposition).isNode_climb hleaf
  rw [IsNode, computeMerkleRoot_top h hne, List.getElem?_singleton] at hnode
  rw [computeMerkleRootFromBranch_eq]
  by_cases hzero : position / 2 ^ MerkleTree.depth leaves = 0
  · rw [if_pos hzero] at hnode
    exact (Option.some.inj hnode).symm
  · rw [if_neg hzero] at hnode
    exact absurd hnode (by simp)

theorem computeMerkleRootFromBranch_path_sample :
    computeMerkleRootFromBranch sampleMerkleHashes (Uint256.fill 3)
      (computeMerklePath sampleMerkleHashes sampleLeaves 2) 2 =
        (computeMerkleRoot sampleMerkleHashes sampleLeaves).1 :=
  computeMerkleRootFromBranch_path sampleMerkleHashes (by decide) rfl

end Byze
