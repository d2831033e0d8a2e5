import Byze.BlockSignerTails

/-! A tail that the block signer attaches has one size, whatever happened to the
signer before. -/

namespace Byze
open QuantumSafeManager

namespace QuantumSafeManager
variable {Key : Type} {h : Hashes} {lib : Liboqs Key} {m : QuantumSafeManager Key}

theorem hasDualKeys_generate (ikm : Bytes) (o : KeygenOutcome) (hk : m.hasDualKeys = true) :
    (m.generateDualKeysFromEntropyIkm h lib ikm o).2.hasDualKeys = true := by
  simp only [hasDualKeys, Bool.and_eq_true] at hk
  simp only [generateDualKeysFromEntropyIkm]
  split
  · simp [hasDualKeys, hk]
  split
  · simp [hasDualKeys, hk]
  · rfl

theorem hasDualKeys_sign (message : Uint256) (algo : QuantumAlgorithm) (o : SignOutcome) :
    (m.sign lib message algo o).2.1.hasDualKeys = m.hasDualKeys := by
  cases algo with
  | xmss =>
    simp only [sign]
    split
    · rfl
    next sk hsk =>
      split
      · rfl
      · simp [hasDualKeys, hsk]
  | sphincsPlus => rw [sign_sphincsPlus_snd]
  | dual => rfl

theorem getDualPublicKeyBundle_length (hk : m.hasDualKeys = true) :
    m.getDualPublicKeyBundle.length = dualPubkeyBundleSize := by
  simp only [hasDualKeys, Bool.and_eq_true, Option.isSome_iff_exists] at hk
  obtain ⟨⟨⟨⟨xs, hxs⟩, xp, hxp⟩, ss, hss⟩, sp, hsp⟩ := hk
  simp [getDualPublicKeyBundle, hxs, hxp, hss, hsp, xp.property, sp.property, dualPubkeyBundleSize]

end QuantumSafeManager

namespace BlockSigner
variable {Key : Type} {h : Hashes} {lib : Liboqs Key} {getHash : CBlockHeader → Uint256}
  {g : BlockSigner Key}

def Keyed (g : BlockSigner Key) : Prop := g.ready = true → g.manager.hasDualKeys = true

theorem ensure_keyed (h : Hashes) (lib : Liboqs Key) (hk : Keyed g) (env : AttachEnv) :
    Keyed (g.ensureBlockSignerKeys h lib env).2 := by
  cases hr : g.ready with
  | true => simpa [ensureBlockSignerKeys, hr] using hk
  | false =>
    simp only [ensureBlockSignerKeys, hr, Bool.false_eq_true, if_false]
    split
    · exact hk
    split
    · intro hready
      simp at hready
    next hok =>
      intro _
      obtain ⟨seed, hx, hxp, hs, hsp⟩ :=
        pairedAt_of_generate (by simpa using hok)
      rw [QuantumSafeManager.HoldsSecret] at hx
      simp [hasDualKeys, hx, hxp, hs, hsp]

theorem rotate_keyed (h : Hashes) (lib : Liboqs Key) (hk : Keyed g) (env : AttachEnv) :
    Keyed (g.rotateKeys h lib env).2 := by
  simp only [rotateKeys]
  split
  · exact hk
  split
  · exact fun hready => hasDualKeys_generate _ _ (hk hready)
  · exact hk

theorem signHash_keyed (hk : Keyed g) (block : CBlock) (o : SignOutcome) :
    Keyed (g.signHash lib getHash block o).signer := by
  intro hready
  simp only [signHash] at hready ⊢
  split at hready
  · next hx =>
    rw [if_pos hx, hasDualKeys_sign]
    exact hk hready
  · next hx =>
    rw [if_neg hx]
    split at hready
    · next hs =>
      rw [if_pos hs, hasDualKeys_sign, hasDualKeys_sign]
      exact hk hready
    · next hs =>
      rw [if_neg hs, hasDualKeys_sign, hasDualKeys_sign]
      exact hk hready

theorem attach_keyed (hk : Keyed g) (call : AttachCall) :
    Keyed (g.attachQuantumBlockSignatures h lib getHash call).signer := by
  have he := ensure_keyed h lib hk call.env
  simp only [attachQuantumBlockSignatures]
  split
  · exact hk
  split
  · exact he
  simp only [signBlockWithReadyKeys]
  split
  · exact he
  split
  · exact he
  have hr := rotate_keyed h lib he call.env
  split
  · exact hr
  · exact signHash_keyed hr _ _

theorem run_keyed (calls : List AttachCall) : Keyed (run h lib getHash calls).1 := by
  induction calls using List.reverseRecOn with
  | nil =>
    intro hready
    simp [run, initial] at hready
  | append_singleton calls call ih =>
    rw [run_append_singleton]
    exact attach_keyed ih call

def tailSize (signed : Bool) : Nat := if signed then 10463 else 3

theorem signHash_ok_tail (hk : g.manager.hasDualKeys = true) {block : CBlock} {o : SignOutcome}
    (hok : (g.signHash lib getHash block o).ok = true) :
    ∃ tail, (g.signHash lib getHash block o).block = { block with quantumSignatures := tail } ∧
      tail.serialize.length = tailSize true := by
  simp only [signHash] at hok ⊢
  split at hok
  · simp at hok
  next hx =>
    split at hok
    · simp at hok
    next hs =>
      have hkeys : (((g.manager.sign lib (getHash block.toCBlockHeader) .xmss o).2.1.sign lib
          (getHash block.toCBlockHeader) .sphincsPlus o).2.1).hasDualKeys = true := by
        rw [hasDualKeys_sign, hasDualKeys_sign]
        exact hk
      rw [if_neg hx, if_neg hs]
      rw [not_not] at hx hs
      refine ⟨_, rfl, ?_⟩
      simp only [QuantumSignatureData.serialize, List.length_append, serializeBytes_length, hx, hs,
        getDualPublicKeyBundle_length hkeys]
      rfl

theorem signBlockWithReadyKeys_ok_tail (hk : Keyed g) {block : CBlock} {env : AttachEnv}
    (hok : (g.signBlockWithReadyKeys h lib getHash block env).ok = true) :
    ∃ tail, (g.signBlockWithReadyKeys h lib getHash block env).block =
        { block with quantumSignatures := tail } ∧ tail.serialize.length = tailSize true := by
  have hr := rotate_keyed h lib hk env
  simp only [signBlockWithReadyKeys] at hok ⊢
  split at hok
  · simp at hok
  next hthread =>
    split at hok
    · simp at hok
    next hready =>
      split at hok
      · simp at hok
      next hrotate =>
        rw [if_neg hthread, if_neg hready, if_neg hrotate]
        have hready' : g.ready = true := by simpa using hready
        exact signHash_ok_tail (hr ((rotateKeys_ready env).trans hready')) hok

theorem attach_ok_tail (hk : Keyed g) {call : AttachCall}
    (hok : (g.attachQuantumBlockSignatures h lib getHash call).ok = true) :
    ∃ tail, (g.attachQuantumBlockSignatures h lib getHash call).block =
        { call.block with quantumSignatures := tail } ∧
      tail.serialize.length = tailSize (call.requireQuantum && !call.isGenesis) := by
  have he := ensure_keyed h lib hk call.env
  simp only [attachQuantumBlockSignatures] at hok ⊢
  by_cases hskip : (!call.requireQuantum || call.isGenesis) = true
  · have hsigned : (call.requireQuantum && !call.isGenesis) = false := by
      rw [← Bool.not_inj_iff]
      simpa using hskip
    rw [if_pos hskip, hsigned]
    exact ⟨QuantumSignatureData.null, rfl, rfl⟩
  · have hsigned : (call.requireQuantum && !call.isGenesis) = true := by
      simpa using hskip
    rw [if_neg hskip] at hok ⊢
    split at hok
    · simp at hok
    next hensure =>
      rw [if_neg hensure, hsigned]
      exact signBlockWithReadyKeys_ok_tail he hok

end BlockSigner

end Byze
