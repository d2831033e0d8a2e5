import Byze.DualKeys

/-! Replacing the keys of a manager that may already have some: from bytes, from
a file, and from entropy. Each routine sets the key objects one after another,
and a check in between can end it. -/

namespace Byze
open QuantumSafeManager XmssPrivateKey

structure DualKeyBlobs where
  xmssPriv : Bytes
  xmssPub : Bytes
  sphPriv : Bytes
  sphPub : Bytes
  deriving DecidableEq

def zeroSphincsPublicKey : SphincsPublicKey := zeroBytes sphincsPubkeySize

def readDualKeyBlobs (input : Bytes) : Option DualKeyBlobs := do
  if input.take 6 ≠ dualKeysHeader then none
  let (xmssPriv, rest) ← readBlob (input.drop 6)
  let (xmssPub, rest) ← readBlob rest
  let (sphPriv, rest) ← readBlob rest
  let (sphPub, _) ← readBlob rest
  some ⟨xmssPriv, xmssPub, sphPriv, sphPub⟩

def DualKeyBlobs.Sized (b : DualKeyBlobs) : Prop :=
  b.xmssPub.length = xmssPubkeySize ∧ b.sphPriv.length = sphincsSecretKeySize ∧
    b.sphPub.length = sphincsPubkeySize

namespace QuantumSafeManager
variable {Key : Type} (m : QuantumSafeManager Key)

def keys : Option (XmssPrivateKey Key) × Option XmssPublicKey × Option SphincsPrivateKey ×
    Option SphincsPublicKey :=
  (m.xmssPrivate, m.xmssPublic, m.sphincsPrivate, m.sphincsPublic)

/-- All four key objects are new ones before the first blob is loaded. -/
def setDualKeys (b : DualKeyBlobs) : Bool × QuantumSafeManager Key :=
  let fresh : QuantumSafeManager Key :=
    ⟨some XmssPrivateKey.empty, some zeroXmssPublicKey, some SphincsPrivateKey.empty,
      some zeroSphincsPublicKey, m.currentAlgo⟩
  match (XmssPrivateKey.empty : XmssPrivateKey Key).load b.xmssPriv with
  | none => (false, fresh)
  | some xmss =>
    match loadSized xmssPubkeySize b.xmssPub with
    | none => (false, { fresh with xmssPrivate := some xmss })
    | some xmssPublic =>
      match SphincsPrivateKey.empty.load b.sphPriv with
      | none => (false, { fresh with xmssPrivate := some xmss, xmssPublic := some xmssPublic })
      | some sphincs =>
        match loadSized sphincsPubkeySize b.sphPub with
        | none =>
          (false, { fresh with xmssPrivate := some xmss, xmssPublic := some xmssPublic,
                               sphincsPrivate := some sphincs })
        | some sphincsPublic =>
          (true, ⟨some (xmss.attachPublicKey b.xmssPub), some xmssPublic,
            some (sphincs.attachPublicKey b.sphPub), some sphincsPublic, .dual⟩)

def deserializeInto (input : Bytes) : Bool × QuantumSafeManager Key :=
  match readDualKeyBlobs input with
  | none => (false, m)
  | some b => m.setDualKeys b

/-- The file is given by the bytes that can be read from it, if it can be
opened. -/
def loadDualKeys (file : Option Bytes) : Bool × QuantumSafeManager Key :=
  match file with
  | none => (false, m)
  | some input => m.deserializeInto input

end QuantumSafeManager

inductive KeyOp where
  | deserialize (input : Bytes)
  | load (file : Option Bytes)
  | generate (ikm : Bytes) (o : KeygenOutcome)

namespace KeyOp
open QuantumSafeManager
variable {Key : Type} (h : Hashes) (lib : Liboqs Key) (m : QuantumSafeManager Key)

def run : KeyOp → Bool × QuantumSafeManager Key
  | deserialize input => m.deserializeInto input
  | load file => m.loadDualKeys file
  | generate ikm o => m.generateDualKeysFromEntropyIkm h lib ikm o

def blobs : KeyOp → Option DualKeyBlobs
  | deserialize input => readDualKeyBlobs input
  | load file => file.bind readDualKeyBlobs
  | generate _ _ => none

def Whole : KeyOp → Prop
  | generate _ o => o.xmss = .succeeds ∧ o.sphincs = .succeeds
  | op => ∀ b, op.blobs = some b → b.Sized

end KeyOp

/-- The blobs before the first one of a wrong size, loaded into new keys. -/
def DualKeyBlobs.unfinished (Key : Type) (b : DualKeyBlobs) :
    Option (XmssPrivateKey Key) × Option XmssPublicKey × Option SphincsPrivateKey ×
      Option SphincsPublicKey :=
  (some ⟨b.xmssPriv, none, none⟩, some ((loadSized xmssPubkeySize b.xmssPub).getD zeroXmssPublicKey),
    some (if b.xmssPub.length = xmssPubkeySize then
        (SphincsPrivateKey.empty.load b.sphPriv).getD SphincsPrivateKey.empty
      else SphincsPrivateKey.empty),
    some zeroSphincsPublicKey)

theorem readBlob_ne_nil {input blob rest : Bytes} (h : readBlob input = some (blob, rest)) : blob ≠ [] := by
  obtain ⟨-, h⟩ := Option.ite_none_left_eq_some.mp h
  obtain ⟨hsz, h⟩ := Option.ite_none_left_eq_some.mp h
  obtain ⟨hlength, h⟩ := Option.ite_none_left_eq_some.mp h
  obtain ⟨rfl, -⟩ := Prod.mk.inj (Option.some.inj h)
  rw [← List.length_pos_iff, List.length_take]
  omega

theorem readDualKeyBlobs_ne_nil {input : Bytes} {b : DualKeyBlobs}
    (h : readDualKeyBlobs input = some b) : b.xmssPriv ≠ [] := by
  simp only [readDualKeyBlobs] at h
  split at h
  · cases h
  obtain ⟨⟨xmssPriv, rest⟩, hblob, h⟩ := Option.bind_eq_some_iff.mp h
  obtain ⟨⟨xmssPub, rest₁⟩, -, h⟩ := Option.bind_eq_some_iff.mp h
  obtain ⟨⟨sphPriv, rest₂⟩, -, h⟩ := Option.bind_eq_some_iff.mp h
  obtain ⟨⟨sphPub, rest₃⟩, -, h⟩ := Option.bind_eq_some_iff.mp h
  obtain rfl := Option.some.inj h
  exact readBlob_ne_nil hblob

section
variable {Key : Type} {m : QuantumSafeManager Key} {b : DualKeyBlobs}

theorem setDualKeys_of_sized (hne : b.xmssPriv ≠ []) (hsized : b.Sized) : (m.setDualKeys b).1 = true := by
  obtain ⟨hpub, hsph, hsphPub⟩ := hsized
  simp [setDualKeys, load, hne, SphincsPrivateKey.load, loadSized, hpub, hsph, hsphPub]

theorem setDualKeys_of_not_sized (hne : b.xmssPriv ≠ []) (hsized : ¬ b.Sized) :
    (m.setDualKeys b).1 = false ∧ (m.setDualKeys b).2.keys = b.unfinished Key := by
  by_cases hpub : b.xmssPub.length = xmssPubkeySize
  · by_cases hsph : b.sphPriv.length = sphincsSecretKeySize
    · have hsphPub : ¬ b.sphPub.length = sphincsPubkeySize := fun h => hsized ⟨hpub, hsph, h⟩
      simp [setDualKeys, keys, DualKeyBlobs.unfinished,
        load, hne, SphincsPrivateKey.load, loadSized, hpub, hsph, hsphPub,
        XmssPrivateKey.empty]
    · simp [setDualKeys, keys, DualKeyBlobs.unfinished,
        load, hne, SphincsPrivateKey.load, loadSized, hpub, hsph,
        XmssPrivateKey.empty]
  · simp [setDualKeys, keys, DualKeyBlobs.unfinished, load, hne, loadSized, hpub, XmssPrivateKey.empty]
end

namespace KeyOp
variable {Key : Type} (h : Hashes) (lib : Liboqs Key) (m : QuantumSafeManager Key)

/-- The manager already has the keys that the call would leave behind. -/
def HeldBefore : KeyOp → Prop
  | generate ikm o =>
    m.xmssPrivate = some (initializeFromEntropy lib (xmssSeed h ikm) o.xmss).2 ∧
      m.sphincsPrivate = some o.unfinishedSphincs
  | op => ∃ b, op.blobs = some b ∧ m.keys = b.unfinished Key

theorem deserialize_unchanged_iff (input : Bytes) :
    ((m.deserializeInto input).1 = false → (m.deserializeInto input).2.keys = m.keys) ↔
      (∀ b, readDualKeyBlobs input = some b → b.Sized) ∨
        ∃ b, readDualKeyBlobs input = some b ∧ m.keys = b.unfinished Key := by
  rw [deserializeInto]
  cases hread : readDualKeyBlobs input with
  | none => simp
  | some b =>
    have hne := readDualKeyBlobs_ne_nil hread
    by_cases hsized : b.Sized
    · simp [setDualKeys_of_sized hne hsized, hsized]
    · obtain ⟨hfails, hkeys⟩ := @setDualKeys_of_not_sized _ m b hne hsized
      simp [hfails, hkeys, hsized, eq_comm]

theorem generate_unchanged_iff (ikm : Bytes) (o : KeygenOutcome) :
    ((m.generateDualKeysFromEntropyIkm h lib ikm o).1 = false →
        (m.generateDualKeysFromEntropyIkm h lib ikm o).2.keys = m.keys) ↔
      (o.xmss = .succeeds ∧ o.sphincs = .succeeds) ∨
        m.xmssPrivate = some (initializeFromEntropy lib (xmssSeed h ikm) o.xmss).2 ∧
          m.sphincsPrivate = some o.unfinishedSphincs := by
  have hfst := generate_fst h lib m ikm o
  by_cases hok : o.xmss = .succeeds ∧ o.sphincs = .succeeds
  · simp [hfst.mpr hok, hok]
  · have hfails := Bool.eq_false_iff.mpr (mt hfst.mp hok)
    have hkeys : (m.generateDualKeysFromEntropyIkm h lib ikm o).2.keys =
        (some (initializeFromEntropy lib (xmssSeed h ikm) o.xmss).2, m.xmssPublic,
          some o.unfinishedSphincs, m.sphincsPublic) := by
      obtain ⟨xmss, sphincs⟩ := o
      cases xmss with
      | succeeds =>
        cases sphincs with
        | succeeds => exact absurd ⟨rfl, rfl⟩ hok
        | fails left =>
          have hfirst := (initializeFromEntropy_fst lib (xmssSeed h ikm) .succeeds).mpr rfl
          simp [generateDualKeysFromEntropyIkm, hfirst, SphincsPrivateKey.initializeFromEntropy128, keys,
            KeygenOutcome.unfinishedSphincs]
      | keypairFails => rfl
      | serializeFails => rfl
    rw [hfails, hkeys, keys]
    constructor
    · intro hsame
      obtain ⟨hxmss, -, hsphincs, -⟩ := by simpa only [Prod.mk.injEq] using hsame rfl
      exact .inr ⟨hxmss.symm, hsphincs.symm⟩
    · rintro (hwhole | ⟨hxmss, hsphincs⟩) -
      · exact absurd hwhole hok
      · rw [hxmss, hsphincs]

/-- A failed call leaves the keys as they were exactly if it cannot fail once it
has begun to replace them, or replaces them by what was there. -/
theorem fails_unchanged_iff (op : KeyOp) : ((op.run h lib m).1 = false → (op.run h lib m).2.keys = m.keys) ↔
      op.Whole ∨ op.HeldBefore h lib m := by
  cases op with
  | deserialize input => exact deserialize_unchanged_iff m input
  | generate ikm o => exact generate_unchanged_iff h lib m ikm o
  | load file =>
    cases file with
    | none => simp [run, loadDualKeys, Whole, blobs]
    | some input => exact deserialize_unchanged_iff m input

end KeyOp

def seededManager (seed : UInt8) : QuantumSafeManager UInt8 :=
  (empty.generateDualKeysFromEntropyIkm byteSumHashes sampleLiboqs [seed] ⟨.succeeds, .succeeds⟩).2

/-- A failed SPHINCS+ generation leaves the new XMSS secret beside the old public
key, and four blobs with a short public key replace all four keys. -/
theorem keyOp_fails_changed : (seededManager 1).hasDualKeys = true ∧
    ((KeyOp.generate [2] ⟨.succeeds, .fails .empty⟩).run byteSumHashes sampleLiboqs (seededManager 1)).1 = false ∧
    ((KeyOp.generate [2] ⟨.succeeds, .fails .empty⟩).run byteSumHashes sampleLiboqs
      (seededManager 1)).2.xmssPrivate.bind publicKey ≠
      ((KeyOp.generate [2] ⟨.succeeds, .fails .empty⟩).run byteSumHashes sampleLiboqs
        (seededManager 1)).2.xmssPublic ∧
    ((KeyOp.deserialize (dualKeysHeader ++ writeBlob [7] ++ writeBlob [7] ++ writeBlob [7] ++
      writeBlob [7])).run byteSumHashes sampleLiboqs (seededManager 1)).1 = false ∧
    ((KeyOp.deserialize (dualKeysHeader ++ writeBlob [7] ++ writeBlob [7] ++ writeBlob [7] ++
      writeBlob [7])).run byteSumHashes sampleLiboqs (seededManager 1)).2.xmssPublic ≠
      (seededManager 1).xmssPublic := by
  decide +kernel

end Byze
