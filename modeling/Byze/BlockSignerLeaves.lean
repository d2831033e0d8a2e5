import Byze.BlockSigner
import Byze.DualKeys

/-! No XMSS key of the block signer uses a leaf twice, whatever fails. -/

namespace Byze

namespace QuantumSafeManager
variable {Key : Type} {h : Hashes} {lib : Liboqs Key} {m : QuantumSafeManager Key}
  {used : List (Key × Nat)} {future : List Key} {k : Key}

/-- The key in use has not used its next leaves, and no key still to be
generated has been used. -/
structure LeafSafe (lib : Liboqs Key) (used : List (Key × Nat)) (future : List Key)
    (m : QuantumSafeManager Key) : Prop where
  nodup : used.Nodup
  current : ∀ sk, m.xmssPrivate = some sk → sk.LeafSafe lib used
  currentKey : ∀ sk s, m.xmssPrivate = some sk → sk.currentSecret lib = some s → s.key ∉ future
  untouched : ∀ k ∈ future, LeafLedger.Untouched used k

theorem leafSafe_empty (lib : Liboqs Key) (future : List Key) :
    LeafSafe lib [] future (empty : QuantumSafeManager Key) where
  nodup := List.nodup_nil
  current sk hsk := by cases hsk
  currentKey sk s hsk := by cases hsk
  untouched k _ := LeafLedger.untouched_nil k

theorem LeafSafe.tail (hs : LeafSafe lib used (k :: future) m) : LeafSafe lib used future m where
  nodup := hs.nodup
  current := hs.current
  currentKey sk s hsk hc hmem := hs.currentKey sk s hsk hc (List.mem_cons_of_mem _ hmem)
  untouched k hk := hs.untouched k (List.mem_cons_of_mem _ hk)

theorem generate_xmssPrivate (h : Hashes) (lib : Liboqs Key) (m : QuantumSafeManager Key) (ikm : Bytes) (o : KeygenOutcome) :
    ∃ sk, (m.generateDualKeysFromEntropyIkm h lib ikm o).2.xmssPrivate = some sk ∧
      ∀ s, sk.currentSecret lib = some s → s.key = xmssKeyOfIkm h lib ikm ∧ s.index = 0 := by
  refine ⟨(XmssPrivateKey.initializeFromEntropy lib (xmssSeed h ikm) o.xmss).2, ?_, ?_⟩
  · simp only [generateDualKeysFromEntropyIkm]
    split
    · rfl
    · split <;> rfl
  · intro s hs
    cases ho : o.xmss <;>
      simp only [ho, XmssPrivateKey.initializeFromEntropy, XmssPrivateKey.currentSecret,
        XmssPrivateKey.empty, lib.stflDeserialize_nil, Option.some.injEq, reduceCtorEq] at hs <;>
      simp [← hs, xmssKeyOfIkm]

theorem LeafSafe.generate {ikm : Bytes} (hs : LeafSafe lib used (xmssKeyOfIkm h lib ikm :: future) m)
    (hf : xmssKeyOfIkm h lib ikm ∉ future) (o : KeygenOutcome) :
    LeafSafe lib used future (m.generateDualKeysFromEntropyIkm h lib ikm o).2 := by
  obtain ⟨sk, hsk, hnew⟩ := m.generate_xmssPrivate h lib ikm o
  refine ⟨hs.nodup, ?_, ?_, hs.tail.untouched⟩
  · intro sk' hsk' s hc
    obtain rfl : sk = sk' := Option.some.inj (hsk.symm.trans hsk')
    rw [(hnew s hc).1]
    exact (hs.untouched _ List.mem_cons_self).unused _
  · intro sk' s hsk' hc
    obtain rfl : sk = sk' := Option.some.inj (hsk.symm.trans hsk')
    rw [(hnew s hc).1]
    exact hf

theorem LeafSafe.sign_xmss (hs : LeafSafe lib used future m) (message : Uint256) (o : SignOutcome) :
    LeafSafe lib ((m.sign lib message .xmss o).2.2.toList ++ used) future
      (m.sign lib message .xmss o).2.1 := by
  simp only [sign]
  split
  · exact hs
  next sk hsk =>
  split
  · exact hs
  have hsafe := XmssPrivateKey.sign_leafSafe message o.xmss (hs.current sk hsk) hs.nodup
  refine ⟨hsafe.1, ?_, ?_, ?_⟩
  · intro sk' hsk'
    obtain rfl := Option.some.inj hsk'
    exact hsafe.2
  · intro sk' t hsk' ht
    obtain rfl := Option.some.inj hsk'
    obtain ⟨s, hc, hk⟩ := XmssPrivateKey.sign_currentSecret_key ht
    rw [← hk]
    exact hs.currentKey sk s hsk hc
  · intro k hk
    cases hl : (sk.sign lib message o.xmss).2.2 with
    | none => exact hs.untouched k hk
    | some leaf =>
      obtain ⟨s, hc, hkey, -⟩ := XmssPrivateKey.sign_leaf_key hl
      refine (hs.untouched k hk).cons_other ?_
      rintro rfl
      exact hs.currentKey sk s hsk hc (hkey ▸ hk)

end QuantumSafeManager

namespace BlockSigner
open QuantumSafeManager
variable {Key : Type} {h : Hashes} {lib : Liboqs Key} {getHash : CBlockHeader → Uint256}
  {g : BlockSigner Key} {used : List (Key × Nat)} {future : List Key}

theorem ensure_leafSafe {env : AttachEnv}
    (hs : LeafSafe lib used (xmssKeyOfIkm h lib env.keygenSeed.val :: future) g.manager)
    (hf : xmssKeyOfIkm h lib env.keygenSeed.val ∉ future) :
    LeafSafe lib used future (g.ensureBlockSignerKeys h lib env).2.manager := by
  have hg := hs.generate hf env.keygen
  simp only [ensureBlockSignerKeys]
  split
  · exact hs.tail
  split
  · exact hs.tail
  split
  · exact hg
  · exact hg

theorem rotate_leafSafe {env : AttachEnv}
    (hs : LeafSafe lib used (xmssKeyOfIkm h lib env.rotationSeed.val :: future) g.manager)
    (hf : xmssKeyOfIkm h lib env.rotationSeed.val ∉ future) :
    LeafSafe lib used future (g.rotateKeys h lib env).2.manager := by
  simp only [rotateKeys]
  split
  · exact hs.tail
  split
  · exact hs.generate hf env.rotation
  · exact hs.tail

theorem signHash_leafSafe (hs : LeafSafe lib used future g.manager) (block : CBlock) (o : SignOutcome) :
    LeafSafe lib ((g.signHash lib getHash block o).leaf.toList ++ used) future
      (g.signHash lib getHash block o).signer.manager := by
  have hx := hs.sign_xmss (getHash block.toCBlockHeader) o
  simp only [signHash, sign_sphincsPlus_snd]
  split
  · exact hx
  split
  · exact hx
  · exact hx

theorem attach_leafSafe {call : AttachCall} (hs : LeafSafe lib used (call.keys h lib ++ future) g.manager)
    (hf : (call.keys h lib ++ future).Nodup) :
    LeafSafe lib ((g.attachQuantumBlockSignatures h lib getHash call).leaf.toList ++ used) future
      (g.attachQuantumBlockSignatures h lib getHash call).signer.manager := by
  obtain ⟨hk, hf'⟩ := List.nodup_cons.mp hf
  obtain ⟨hr, -⟩ := List.nodup_cons.mp hf'
  have he := ensure_leafSafe hs hk
  simp only [attachQuantumBlockSignatures]
  split
  · exact hs.tail.tail
  split
  · exact he.tail
  simp only [signBlockWithReadyKeys]
  split
  · exact he.tail
  split
  · exact he.tail
  have hrot := rotate_leafSafe he hr
  split
  · exact hrot
  · exact signHash_leafSafe hrot _ _

theorem foldl_step_leafSafe (calls : List AttachCall) {st : BlockSigner Key × List (Key × Nat)}
    (hs : LeafSafe lib st.2 (calls.flatMap (AttachCall.keys h lib)) st.1.manager)
    (hf : (calls.flatMap (AttachCall.keys h lib)).Nodup) :
    LeafSafe lib (calls.foldl (step h lib getHash) st).2 []
      (calls.foldl (step h lib getHash) st).1.manager := by
  induction calls generalizing st with
  | nil => exact hs
  | cons call calls ih =>
    exact ih (attach_leafSafe hs hf) (List.Nodup.of_append_right hf)

end BlockSigner

end Byze
