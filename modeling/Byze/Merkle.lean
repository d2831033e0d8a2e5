import Byze.CheckBlock
import Byze.VerifyScript
import Byze.Lib.MerkleTree

/-! The loop of `ComputeMerkleRoot` builds the levels of a hash tree, and its
mutation flag tells whether one of them pairs two equal hashes. Without the
flag, the root of a nonempty list determines the list. -/

namespace Byze
open MerkleTree

def merklePair (h : Hashes) (a b : Uint256) : Uint256 := hash256 h (a.val ++ b.val)

theorem merkleLevel_eq (h : Hashes) (hashes : List Uint256) :
    merkleLevel h hashes = level (merklePair h) hashes := by
  induction hashes using merkleLevel.induct with
  | case1 => rfl
  | case2 a => rfl
  | case3 a b hashes ih =>
    rw [merkleLevel, ih]
    rfl

theorem merkleRepeats_iff (hashes : List Uint256) :
    merkleRepeats hashes = true ↔ Repeats hashes := by
  induction hashes using merkleRepeats.induct with
  | case1 a b hashes ih => simp [merkleRepeats, Repeats, ih]
  | case2 hashes hshort => simp [merkleRepeats, Repeats]

theorem computeMerkleRoot_cons_cons (h : Hashes) (a b : Uint256) (rest : List Uint256) :
    computeMerkleRoot h (a :: b :: rest) =
      ((computeMerkleRoot h (level (merklePair h) (a :: b :: rest))).1, merkleRepeats (a :: b :: rest) ||
          (computeMerkleRoot h (level (merklePair h) (a :: b :: rest))).2) := by
  rw [computeMerkleRoot, merkleLevel_eq]

theorem computeMerkleRoot_top (h : Hashes) {hashes : List Uint256} (hne : hashes ≠ []) :
    (level (merklePair h))^[depth hashes] hashes = [(computeMerkleRoot h hashes).1] := by
  induction hashes using computeMerkleRoot.induct h with
  | case1 => exact absurd rfl hne
  | case2 a => rw [computeMerkleRoot]; rfl
  | case3 a b rest ih =>
    rw [merkleLevel_eq] at ih
    rw [computeMerkleRoot_cons_cons, depth_of_two_le (merklePair h) (by simp)]
    exact ih (by simp [level, pairs])

theorem computeMerkleRoot_unmutated (h : Hashes) (hashes : List Uint256) :
    (computeMerkleRoot h hashes).2 = false ↔ Unrepeated (merklePair h) hashes := by
  induction hashes using computeMerkleRoot.induct h with
  | case1 => simp [computeMerkleRoot, Unrepeated, depth]
  | case2 a => simp [computeMerkleRoot, Unrepeated, depth]
  | case3 a b rest ih =>
    rw [merkleLevel_eq] at ih
    rw [computeMerkleRoot_cons_cons, unrepeated_of_two_le (merklePair h) (by simp), ← ih, ← merkleRepeats_iff]
    simp

/-- Computing the roots of two lists meets no collision of the hash, and none
of the leaves is one of the hashes computed. It follows from an injective pair
hash whose image has no leaf, of which 32-byte hashes have none. -/
structure CollisionFree (h : Hashes) (l m : List Uint256) : Prop where
  injective : ∀ p q, Hashed (merklePair h) l p ∨ Hashed (merklePair h) m p →
    Hashed (merklePair h) l q ∨ Hashed (merklePair h) m q →
      merklePair h p.1 p.2 = merklePair h q.1 q.2 → p = q
  leaves : ∀ a ∈ l ++ m, ∀ p, Hashed (merklePair h) l p ∨ Hashed (merklePair h) m p →
      merklePair h p.1 p.2 ≠ a

theorem leaves_eq_of_merkleRoot_eq {h : Hashes} {l m : List Uint256} (hfree : CollisionFree h l m)
    (hl : l ≠ []) (hm : m ≠ []) (hroot : (computeMerkleRoot h l).1 = (computeMerkleRoot h m).1)
    (hlmut : (computeMerkleRoot h l).2 = false) (hmmut : (computeMerkleRoot h m).2 = false) :
    l = m := by
  have htop : (level (merklePair h))^[depth l] l = (level (merklePair h))^[depth m] m := by
    rw [computeMerkleRoot_top h hl, computeMerkleRoot_top h hm, hroot]
  exact leaves_eq_of_top_eq ((computeMerkleRoot_unmutated h l).mp hlmut)
    ((computeMerkleRoot_unmutated h m).mp hmmut)
    (fun p q hp hq => hfree.injective p q (.inl hp) (.inr hq)) htop hl hm
    (fun a ha p hp => hfree.leaves a (List.mem_append_left _ ha) p (.inr hp))
    (fun a ha p hp => hfree.leaves a (List.mem_append_right _ ha) p (.inl hp))

theorem computeMerkleRoot_complete {h : Hashes} {l m : List Uint256} (hfree : CollisionFree h l m)
    (hempty : l = [] ↔ m = []) (hroot : (computeMerkleRoot h l).1 = (computeMerkleRoot h m).1)
    (hlmut : (computeMerkleRoot h l).2 = false) (hmmut : (computeMerkleRoot h m).2 = false) :
    l = m := by
  by_cases hl : l = []
  · rw [hl, hempty.mp hl]
  · exact leaves_eq_of_merkleRoot_eq hfree hl (fun hm => hl (hempty.mpr hm)) hroot hlmut hmmut

def sampleMerkleHashes : Hashes :=
  { sampleHashes with
    sha256 := fun b =>
      if hb : b.length = 64 then
        ⟨(b.take 16 ++ (b.drop 32).take 16).map (· + 10), by simp [hb]⟩
      else if hb : b.length = 32 then ⟨b, hb⟩ else Uint256.zero }

def sampleLeaves : List Uint256 := [Uint256.fill 1, Uint256.fill 2, Uint256.fill 3]

def sampleHashed : List (Uint256 × Uint256) :=
  (List.range 2).flatMap fun k =>
    pairs ((level (merklePair sampleMerkleHashes))^[k] sampleLeaves)

theorem mem_sampleHashed {p : Uint256 × Uint256}
    (hp : Hashed (merklePair sampleMerkleHashes) sampleLeaves p) : p ∈ sampleHashed := by
  obtain ⟨k, hk, hp⟩ := hp
  exact List.mem_flatMap.mpr ⟨k, List.mem_range.mpr hk, hp⟩

theorem collisionFree_sample : CollisionFree sampleMerkleHashes sampleLeaves sampleLeaves where
  injective p q hp hq heq := by
    rw [or_self] at hp hq
    have hinj : ∀ p ∈ sampleHashed, ∀ q ∈ sampleHashed,
        merklePair sampleMerkleHashes p.1 p.2 = merklePair sampleMerkleHashes q.1 q.2 → p = q := by
      decide +kernel
    exact hinj p (mem_sampleHashed hp) q (mem_sampleHashed hq) heq
  leaves a ha p hp := by
    rw [or_self] at hp
    have hleaf : ∀ a ∈ sampleLeaves ++ sampleLeaves, ∀ p ∈ sampleHashed,
        merklePair sampleMerkleHashes p.1 p.2 ≠ a := by
      decide +kernel
    exact hleaf a ha p (mem_sampleHashed hp)

theorem computeMerkleRoot_complete_sample :
    (computeMerkleRoot sampleMerkleHashes sampleLeaves).2 = false ∧ sampleLeaves = sampleLeaves := by
  have hunmutated : (computeMerkleRoot sampleMerkleHashes sampleLeaves).2 = false := by decide +kernel
  exact ⟨hunmutated, computeMerkleRoot_complete collisionFree_sample Iff.rfl rfl hunmutated hunmutated⟩

/-- The root of the empty list is the null hash, which may be a leaf. -/
theorem computeMerkleRoot_empty_eq_null : CollisionFree sampleMerkleHashes [] [Uint256.zero] ∧
    computeMerkleRoot sampleMerkleHashes [] = (Uint256.zero, false) ∧
    computeMerkleRoot sampleMerkleHashes [Uint256.zero] = (Uint256.zero, false) ∧
    [] ≠ [Uint256.zero] := by
  have hnone : ∀ p, ¬ (Hashed (merklePair sampleMerkleHashes) [] p ∨
      Hashed (merklePair sampleMerkleHashes) [Uint256.zero] p) := by
    simp [Hashed, depth]
  refine ⟨⟨fun p _ hp => absurd hp (hnone p), fun _ _ p hp => absurd hp (hnone p)⟩, ?_⟩
  decide +kernel

end Byze
