import Byze.QuantumManager

/-! The states of a dual key: a private XMSS key that holds a secret, all four
keys belonging together, and what generation and signing do to them. -/

namespace Byze
open XmssPrivateKey

namespace QuantumSafeManager
variable {Key : Type} {h : Hashes} {lib : Liboqs Key} {m : QuantumSafeManager Key}

theorem sign_sphincsPlus_fst (lib : Liboqs Key) {m : QuantumSafeManager Key} {sk : SphincsPrivateKey}
    (hsk : m.sphincsPrivate = some sk) (message : Uint256) (o : SignOutcome) :
    (m.sign lib message .sphincsPlus o).1 = (sk.sign lib message o.sphincs).val := by
  simp [sign, hsk]

theorem sign_sphincsPlus_snd (lib : Liboqs Key) (m : QuantumSafeManager Key) (message : Uint256)
    (o : SignOutcome) : (m.sign lib message .sphincsPlus o).2 = (m, none) := by
  simp only [sign]
  split <;> rfl

/-- The private XMSS key holds no secret and never signs. -/
def Dead (m : QuantumSafeManager Key) : Prop :=
  ∃ sk, m.xmssPrivate = some sk ∧ sk.secretKey = []

/-- The private XMSS key is at secret `s`, in memory and as stored. -/
def HoldsSecret (lib : Liboqs Key) (s : XmssSecret Key) (m : QuantumSafeManager Key) : Prop :=
  m.xmssPrivate = some ⟨lib.stflSerialize s, some (lib.stflPublicKey s.key), some s⟩

def PairedAt (lib : Liboqs Key) (s : XmssSecret Key) (m : QuantumSafeManager Key) : Prop :=
  ∃ seed : Bytes, HoldsSecret lib s m ∧ m.xmssPublic = some (lib.stflPublicKey s.key) ∧
    m.sphincsPrivate = some ⟨(lib.sigKeypair seed).2, (lib.sigKeypair seed).1⟩ ∧
    m.sphincsPublic = some (lib.sigKeypair seed).1

def Paired (lib : Liboqs Key) (m : QuantumSafeManager Key) : Prop := ∃ s, PairedAt lib s m

theorem initializeFromEntropy_fst (lib : Liboqs Key) (seed : Bytes) (o : XmssKeygenOutcome) :
    (initializeFromEntropy lib seed o).1 = true ↔ o = .succeeds := by
  cases o <;> simp [initializeFromEntropy, lib.stflSerialize_ne_nil]

theorem generate_fst (h : Hashes) (lib : Liboqs Key) (m : QuantumSafeManager Key) (ikm : Bytes)
    (o : KeygenOutcome) :
    (m.generateDualKeysFromEntropyIkm h lib ikm o).1 = true ↔ o.xmss = .succeeds ∧ o.sphincs = .succeeds := by
  have hx := initializeFromEntropy_fst lib (xmssSeed h ikm) o.xmss
  by_cases ho : o.xmss = .succeeds
  · simp only [generateDualKeysFromEntropyIkm, hx.mpr ho]
    cases hs : o.sphincs <;> simp [ho, SphincsPrivateKey.initializeFromEntropy128]
  · simp [generateDualKeysFromEntropyIkm, Bool.eq_false_iff.mpr (mt hx.mp ho), ho]

theorem pairedAt_of_generate {ikm : Bytes} {o : KeygenOutcome}
    (ho : (m.generateDualKeysFromEntropyIkm h lib ikm o).1 = true) :
    PairedAt lib ⟨xmssKeyOfIkm h lib ikm, 0, Nat.zero_le _⟩
      (m.generateDualKeysFromEntropyIkm h lib ikm o).2 := by
  obtain ⟨hx, hs⟩ := (generate_fst h lib m ikm o).mp ho
  refine ⟨sphSeed h ikm, ?_⟩
  have hne : ∀ s : XmssSecret Key, (lib.stflSerialize s).isEmpty = false := by
    simp [lib.stflSerialize_ne_nil]
  simp only [generateDualKeysFromEntropyIkm, hx, hs, initializeFromEntropy, hne]
  exact ⟨rfl, rfl, rfl, rfl⟩

theorem dead_of_generate {ikm : Bytes} {o : KeygenOutcome}
    (ho : (m.generateDualKeysFromEntropyIkm h lib ikm o).1 = false)
    (hs : o.xmss = .succeeds → o.sphincs = .succeeds) :
    Dead (m.generateDualKeysFromEntropyIkm h lib ikm o).2 := by
  have hx : o.xmss ≠ .succeeds := by
    intro hx
    have hok := (generate_fst h lib m ikm o).mpr ⟨hx, hs hx⟩
    simp [ho] at hok
  cases hox : o.xmss with
  | succeeds => exact False.elim (hx hox)
  | keypairFails =>
    exact ⟨XmssPrivateKey.empty, by
      simp [generateDualKeysFromEntropyIkm, hox, initializeFromEntropy], rfl⟩
  | serializeFails =>
    refine ⟨⟨[], some (lib.stflPublicKey (xmssKeyOfIkm h lib ikm)),
      some ⟨xmssKeyOfIkm h lib ikm, 0, Nat.zero_le _⟩⟩, ?_, rfl⟩
    simp [generateDualKeysFromEntropyIkm, hox, initializeFromEntropy, xmssKeyOfIkm]

theorem Dead.sign_xmss (lib : Liboqs Key) (hd : Dead m) (message : Uint256) (o : SignOutcome) :
    m.sign lib message .xmss o = ([], m, none) := by
  obtain ⟨sk, hsk, hnil⟩ := hd
  simp [sign, hsk, getRemainingSignatures, hnil, lib.stflDeserialize_nil]

variable {s : XmssSecret Key} {o : SignOutcome}

theorem HoldsSecret.getXmssIndex (hs : HoldsSecret lib s m) :
    m.getXmssIndex lib .succeeds = some s.index := by
  have hle := s.index_le
  rw [HoldsSecret] at hs
  simp only [QuantumSafeManager.getXmssIndex, hs, Option.map_some, getIndex,
    lib.stflDeserialize_serialize, XmssSecret.remaining, Option.some.injEq]
  omega

theorem HoldsSecret.sign_xmss_refused (hs : HoldsSecret lib s m) (message : Uint256)
    (hr : o.remainingRead = false ∨ s.remaining = 0) :
    m.sign lib message .xmss o = ([], m, none) := by
  have hrem : (if o.remainingRead then s.remaining else 0) = 0 := by
    rcases hr with hr | hr <;> simp [hr]
  rw [HoldsSecret] at hs
  simp [sign, hs, getRemainingSignatures, lib.stflDeserialize_serialize, hrem]

theorem HoldsSecret.sign_xmss (hs : HoldsSecret lib s m) (message : Uint256)
    (ho : o.xmss = .succeeds) (hr : o.remainingRead = true) (hlt : s.index < xmssLeaves) :
    m.sign lib message .xmss o = ((lib.stflSign s.key s.index message.val).val,
      { m with xmssPrivate := some ⟨lib.stflSerialize (s.advance hlt),
        some (lib.stflPublicKey s.key), some (s.advance hlt)⟩ }, some (s.key, s.index)) := by
  have hrem : s.remaining ≠ 0 := Nat.sub_ne_zero_of_lt hlt
  have hsign : (XmssPrivateKey.mk (lib.stflSerialize s) (some (lib.stflPublicKey s.key))
      (some s)).sign lib message o.xmss =
      (lib.stflSign s.key s.index message.val,
        ⟨lib.stflSerialize (s.advance hlt), some (lib.stflPublicKey s.key),
          some (s.advance hlt)⟩, some (s.key, s.index)) := by
    simp [XmssPrivateKey.sign, lib.stflSerialize_ne_nil, currentSecret, hlt, ho]
  rw [HoldsSecret] at hs
  simp [sign, hs, getRemainingSignatures, lib.stflDeserialize_serialize, hr, hrem, hsign]

theorem PairedAt.advance (hp : PairedAt lib s m) (hlt : s.index < xmssLeaves) :
    PairedAt lib (s.advance hlt) { m with xmssPrivate := some ⟨lib.stflSerialize (s.advance hlt),
      some (lib.stflPublicKey s.key), some (s.advance hlt)⟩ } := by
  obtain ⟨seed, -, hxp, hss, hsp⟩ := hp
  exact ⟨seed, rfl, hxp, hss, hsp⟩

theorem Paired.sign_xmss (hp : Paired lib m) (message : Uint256) (ho : o.xmss = .succeeds) :
    (m.sign lib message .xmss o).1 = [] ∧ Paired lib (m.sign lib message .xmss o).2.1 ∨
    (m.sign lib message .xmss o).1.length = xmssSignatureSize ∧ Paired lib (m.sign lib message .xmss o).2.1 ∧
      ∃ pk, (m.sign lib message .xmss o).2.1.xmssPublic = some pk ∧
        lib.stflVerify message.val (m.sign lib message .xmss o).1 pk.val = true := by
  obtain ⟨s, hs⟩ := hp
  by_cases hr : o.remainingRead = false ∨ s.remaining = 0
  · left
    obtain ⟨seed, hsec, hrest⟩ := hs
    rw [hsec.sign_xmss_refused message hr]
    exact ⟨rfl, s, seed, hsec, hrest⟩
  · right
    push Not at hr
    have hlt : s.index < xmssLeaves := Nat.lt_of_sub_ne_zero hr.2
    have hadv := hs.advance hlt
    obtain ⟨-, hsec, hxp, -⟩ := hs
    rw [hsec.sign_xmss message ho (by simpa using hr.1) hlt]
    exact ⟨(lib.stflSign s.key s.index message.val).property, ⟨_, hadv⟩, lib.stflPublicKey s.key,
      hxp, lib.stflVerify_sign s.key s.index message.val hlt⟩

theorem Paired.dualSignatureValid (hp : Paired lib m) (message : Uint256) (ho : o.sphincs = true)
    {pk : XmssPublicKey} (hpk : m.xmssPublic = some pk) {sig : Bytes}
    (hl : sig.length = xmssSignatureSize) (hv : lib.stflVerify message.val sig pk.val = true) :
    DualSignatureValid lib.toOqsVerify sig (m.sign lib message .sphincsPlus o).1
      m.getDualPublicKeyBundle message := by
  obtain ⟨s, seed, hxs, -, hss, hsp⟩ := hp
  have hsig : (m.sign lib message .sphincsPlus o).1 =
      (lib.sigSign (lib.sigKeypair seed).2 message.val).val := by
    rw [sign_sphincsPlus_fst lib hss, ho]
    rfl
  have hbundle : m.getDualPublicKeyBundle = pk.val ++ (lib.sigKeypair seed).1.val := by
    rw [HoldsSecret] at hxs
    simp [getDualPublicKeyBundle, hxs, hpk, hss, hsp]
  have hlen := pk.property
  refine ⟨hl, ?_, ?_, ?_, ?_⟩
  · rw [hsig]
    exact (lib.sigSign (lib.sigKeypair seed).2 message.val).property
  · simp [hbundle, hlen, (lib.sigKeypair seed).1.property, dualPubkeyBundleSize]
  · rw [hbundle, List.take_left' hlen]
    exact hv
  · rw [hsig, hbundle, List.drop_left' hlen]
    exact lib.sigVerify_sign seed message.val

end QuantumSafeManager

end Byze
