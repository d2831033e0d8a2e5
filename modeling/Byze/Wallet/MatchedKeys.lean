import Byze.DualSignature
import Byze.Wallet.AllKeys

/-! The keys of a wallet belong together in every state that a run reaches, and
the XMSS secret in memory is never behind the one that is stored. -/

namespace Byze

namespace XmssPrivateKey
variable {Key : Type} {lib : Liboqs Key} {sk : XmssPrivateKey Key} {pk : XmssPublicKey}

structure BelongsTo (lib : Liboqs Key) (sk : XmssPrivateKey Key) (pk : XmssPublicKey) : Prop where
  publicKey : sk.publicKey = some pk
  stored : ∀ s, lib.stflDeserialize sk.secretKey = some s → lib.stflPublicKey s.key = pk
  current : ∀ s, sk.currentSecret lib = some s → lib.stflPublicKey s.key = pk
  ahead : ∀ s t, sk.currentSecret lib = some s → lib.stflDeserialize sk.secretKey = some t → t.index ≤ s.index

theorem BelongsTo.copy (h : sk.BelongsTo lib pk) : BelongsTo lib ⟨sk.secretKey, some pk, none⟩ pk where
  publicKey := rfl
  stored := h.stored
  current := h.stored
  ahead s t hs ht := by
    obtain rfl := Option.some.inj (hs.symm.trans ht)
    exact le_rfl

theorem BelongsTo.sign (h : sk.BelongsTo lib pk) (message : Uint256) (o : XmssSignOutcome) :
    (sk.sign lib message o).2.1.BelongsTo lib pk := by
  have hmoved : ∀ s s' blob, sk.currentSecret lib = some s → (s' = s ∨ ∃ hlt, s' = s.advance hlt) →
      blob = sk.secretKey ∨ blob = lib.stflSerialize s' →
      BelongsTo lib { sk with stflSecret := some s', secretKey := blob } pk := by
    intro s s' blob hs hs' hblob
    have hkey : lib.stflPublicKey s'.key = pk := by
      rcases hs' with rfl | ⟨_, rfl⟩
      · exact h.current _ hs
      · exact h.current s hs
    have hle : s.index ≤ s'.index := by
      rcases hs' with rfl | ⟨_, rfl⟩
      · exact le_rfl
      · exact Nat.le_succ _
    refine ⟨h.publicKey, fun t ht => ?_, fun t ht => ?_, fun t u ht hu => ?_⟩
    · rcases hblob with rfl | rfl
      · exact h.stored t ht
      · obtain rfl := Option.some.inj ((lib.stflDeserialize_serialize s').symm.trans ht)
        exact hkey
    · obtain rfl := Option.some.inj ht
      exact hkey
    · obtain rfl := Option.some.inj ht
      rcases hblob with rfl | rfl
      · exact (h.ahead s u hs hu).trans hle
      · obtain rfl := Option.some.inj ((lib.stflDeserialize_serialize s').symm.trans hu)
        exact le_rfl
  rcases sk.sign_cases lib message o with he | ⟨s, hs, ⟨s', blob, hs', hblob, he⟩ | ⟨hlt, -, he⟩⟩
  · rw [he]
    exact h
  · rw [he]
    exact hmoved s s' blob hs hs' hblob
  · rw [he]
    exact hmoved s _ _ hs (Or.inr ⟨hlt, rfl⟩) (Or.inr rfl)

theorem BelongsTo.leafLeft (h : sk.BelongsTo lib pk) {o : SignOutcome} {s : XmssSecret Key}
    (hread : QuantumSafeManager.LeafRead lib o sk) (hs : sk.currentSecret lib = some s)
    (hlt : s.index < xmssLeaves) : sk.LeafLeft lib := by
  obtain ⟨-, stored, hstored, hstored_lt⟩ := hread
  refine ⟨stored, s, hstored, hstored_lt, ?_, hs, hlt, h.ahead s stored hs hstored⟩
  rw [h.publicKey]
  rfl

end XmssPrivateKey

namespace QuantumSafeManager
variable {Key : Type} {lib : Liboqs Key} {m m' : QuantumSafeManager Key}

/-- All four keys are there and belong together. -/
def Matched (lib : Liboqs Key) (m : QuantumSafeManager Key) : Prop :=
  m.Sized ∧ ∃ sk xp ss sp algo seed, m = ⟨some sk, some xp, some ss, some sp, algo⟩ ∧
    sk.BelongsTo lib xp ∧ lib.sigKeypair seed = (sp, ss.secretKey)

def leavesUsed (lib : Liboqs Key) (m : QuantumSafeManager Key) : Nat :=
  ((m.xmssPrivate.bind (·.currentSecret lib)).map (·.index)).getD 0

def leavesStored (lib : Liboqs Key) (m : QuantumSafeManager Key) : Nat :=
  ((m.xmssPrivate.bind fun sk => lib.stflDeserialize sk.secretKey).map (·.index)).getD 0

theorem Matched.leavesStored_le (h : m.Matched lib) : m.leavesStored lib ≤ m.leavesUsed lib := by
  obtain ⟨-, sk, xp, ss, sp, algo, seed, rfl, hsk, -⟩ := h
  simp only [leavesStored, leavesUsed, Option.bind_some]
  cases ht : lib.stflDeserialize sk.secretKey with
  | none => exact Nat.zero_le _
  | some t =>
    cases hs : sk.currentSecret lib with
    | none =>
      rw [XmssPrivateKey.currentSecret] at hs
      split at hs
      · cases hs
      · cases ht.symm.trans hs
    | some s => exact hsk.ahead s t hs ht

theorem Matched.sign (h : m.Matched lib) (message : Uint256) (o : SignOutcome) :
    (m.sign lib message .xmss o).2.1.Matched lib := by
  refine ⟨sign_sized h.1 message o, ?_⟩
  obtain ⟨hsized, sk, xp, ss, sp, algo, seed, rfl, hsk, hseed⟩ := h
  simp only [sign]
  split
  · exact ⟨sk, xp, ss, sp, algo, seed, rfl, hsk, hseed⟩
  · exact ⟨_, xp, ss, sp, algo, seed, rfl, hsk.sign message o.xmss, hseed⟩

theorem matched_keptByCopies : KeptByCopies (Matched lib) := by
  rintro m plain m' ⟨hsized, sk, xp, ss, sp, algo, seed, rfl, hsk, hseed⟩ hplain hd
  refine ⟨sized_of_deserialize hd, ?_⟩
  obtain ⟨_, _, _, _, _, hm, rfl⟩ := deserialize_of_serialize hsized hplain hd
  cases hm
  exact ⟨_, xp, _, sp, .dual, seed, rfl, hsk.copy, hseed⟩

theorem copy_eq (env : WalletEnv Key) {plain : Bytes} (hm : m.Sized)
    (hplain : m.serializeDualKeys = some plain) (h : deserializeDualKeys plain = some m') :
    programFromManager env m' = programFromManager env m ∧
      m'.leavesUsed env.lib = m.leavesStored env.lib := by
  obtain ⟨sk, xp, ss, sp, algo, rfl, rfl⟩ := deserialize_of_serialize hm hplain h
  exact ⟨rfl, rfl⟩

theorem Matched.exists_copy (h : m.Matched lib) (message : Uint256) (o : SignOutcome)
    (hlength : (m.sign lib message .xmss o).1.length = xmssSignatureSize) :
    ∃ plain, ∃ copy : QuantumSafeManager Key,
      (m.sign lib message .xmss o).2.1.serializeDualKeys = some plain ∧
      deserializeDualKeys plain = some copy := by
  have hsized : (m.sign lib message .xmss o).2.1.Sized := sign_sized h.1 message o
  obtain ⟨-, sk, xp, ss, sp, algo, seed, rfl, -⟩ := h
  simp only [QuantumSafeManager.sign] at hlength hsized ⊢
  split at hlength
  · rw [List.length_nil, xmssSignatureSize] at hlength
    omega
  rename_i hrem
  rw [if_neg hrem] at hsized ⊢
  have hne : sk.secretKey ≠ [] := by
    intro hnil
    simp [XmssPrivateKey.getRemainingSignatures, hnil, lib.stflDeserialize_nil] at hrem
  have hne' : (sk.sign lib message o.xmss).2.1.secretKey ≠ [] := by
    rcases sk.sign_cases lib message o.xmss with he | ⟨s, -, ⟨s', blob, -, hblob, he⟩ | ⟨hlt, -, he⟩⟩
    · rw [he]
      exact hne
    · rw [he]
      rcases hblob with rfl | rfl
      · exact hne
      · exact lib.stflSerialize_ne_nil s'
    · rw [he]
      exact lib.stflSerialize_ne_nil _
  have hplain : serializeDualKeys (⟨some (sk.sign lib message o.xmss).2.1, some xp, some ss, some sp, algo⟩ :
      QuantumSafeManager Key) = some _ := rfl
  exact ⟨_, _, hplain, deserialize_serializeDualKeys hne' (hsized _ rfl) hplain⟩

theorem Matched.leavesUsed_sign_le (h : m.Matched lib) (hleft : ¬ m.LeafLeft lib) (message : Uint256)
    (o : SignOutcome) : (m.sign lib message .xmss o).2.1.leavesUsed lib ≤ m.leavesUsed lib := by
  obtain ⟨-, sk, xp, ss, sp, algo, seed, rfl, hsk, -⟩ := h
  simp only [QuantumSafeManager.sign]
  split
  · exact le_rfl
  rename_i hrem
  have hfull : ∀ s, sk.currentSecret lib = some s → ¬ s.index < xmssLeaves := fun s hs hlt =>
    hleft ⟨sk, rfl, hsk.leafLeft (getRemainingSignatures_ne_zero.mp hrem) hs hlt⟩
  simp only [leavesUsed, Option.bind_some]
  rcases sk.sign_cases lib message o.xmss with he | ⟨s, hs, ⟨s', blob, hs', -, he⟩ | ⟨hlt, -, he⟩⟩
  · rw [he]
  · rw [he, hs]
    rcases hs' with rfl | ⟨hlt, rfl⟩
    · exact le_rfl
    · exact absurd hlt (hfull s hs)
  · exact absurd hlt (hfull s hs)

theorem LeafLeft.leavesStored_sign (h : m.LeafLeft lib) (message : Uint256) {o : SignOutcome}
    (hr : o.remainingRead = true) (ho : o.xmss = .succeeds) :
    (m.sign lib message .xmss o).2.1.leavesStored lib = m.leavesUsed lib + 1 := by
  obtain ⟨sk, hm, hleft⟩ := h
  obtain ⟨s, hslt, hs, -, hsign⟩ := hleft.sign message
  obtain ⟨stored, -, hstored, hlt, -⟩ := hleft
  rw [sign_xmss_of_lt hm hstored hlt message hr ho, hsign]
  simp only [leavesStored, leavesUsed, Option.bind_some, lib.stflDeserialize_serialize, hm, hs]
  rfl

theorem Matched.dualSignatureValid (h : m.Matched lib) (hleft : m.LeafLeft lib) (message : Uint256)
    {o o' : SignOutcome} (hr : o.remainingRead = true) (ho : o.xmss = .succeeds) (ho' : o'.sphincs = true) :
    DualSignatureValid lib.toOqsVerify (m.sign lib message .xmss o).1
      ((m.sign lib message .xmss o).2.1.sign lib message .sphincsPlus o').1 m.getDualPublicKeyBundle
      message := by
  obtain ⟨-, sk, xp, ss, sp, algo, seed, rfl, hsk, hseed⟩ := h
  obtain ⟨_, hm, hleft⟩ := hleft
  obtain rfl := Option.some.inj hm
  obtain ⟨s, hslt, hs, -, hsign⟩ := hleft.sign message
  obtain ⟨stored, -, hstored, hlt, -⟩ := hleft
  rw [sign_xmss_of_lt rfl hstored hlt message hr ho, hsign]
  rw [sign_sphincsPlus_fst lib rfl]
  have hxp := hsk.current s hs
  have hbundle : getDualPublicKeyBundle (⟨some sk, some xp, some ss, some sp, algo⟩ : QuantumSafeManager Key) =
      xp.val ++ sp.val := rfl
  refine ⟨(lib.stflSign s.key s.index message.val).property, (ss.sign lib message o'.sphincs).property,
    ?_, ?_, ?_⟩
  · simp [hbundle, xp.property, sp.property, dualPubkeyBundleSize]
  · rw [hbundle, List.take_left' xp.property, ← hxp]
    exact lib.stflVerify_sign s.key s.index message.val hslt
  · rw [hbundle, List.drop_left' xp.property, ho']
    have hverify := lib.sigVerify_sign seed message.val
    rw [hseed] at hverify
    exact hverify

theorem matched_of_derivedKey {env : WalletEnv Key} {root : CExtKey} {ref : QuantumKeyRef}
    {o : KeygenOutcome} (h : derivedKey env root ref o = some m) :
    m.Matched env.lib ∧ m.leavesUsed env.lib = 0 := by
  obtain ⟨hok, hm⟩ := Option.ite_none_right_eq_some.mp h
  obtain ⟨seed, hsec, hxp, hss, hsp⟩ := pairedAt_of_generate hok
  obtain rfl := Option.some.inj hm
  generalize (empty.generateDualKeysFromEntropyIkm env.hashes env.lib (quantumIkm root ref) o).2 = m
    at hsec hxp hss hsp
  obtain ⟨xmssPrivate, xmssPublic, sphincsPrivate, sphincsPublic, algo⟩ := m
  subst hsec hxp hss hsp
  refine ⟨⟨?_, _, _, _, _, algo, seed, rfl, ⟨rfl, ?_, ?_, ?_⟩, rfl⟩, rfl⟩
  · intro sk hsk
    obtain rfl := Option.some.inj hsk
    exact env.lib.stflSerialize_length_le _
  · intro s hs
    obtain rfl := Option.some.inj ((env.lib.stflDeserialize_serialize _).symm.trans hs)
    rfl
  · intro s hs
    obtain rfl := Option.some.inj hs
    rfl
  · intro s t hs ht
    obtain rfl := Option.some.inj hs
    obtain rfl := Option.some.inj ((env.lib.stflDeserialize_serialize _).symm.trans ht)
    exact le_rfl

end QuantumSafeManager

theorem walletRun_matched {Key : Type} {env : WalletEnv Key} {master : Uint256} {keypoolSize : Nat}
    {outcomes : Nat → Outcome} {es : List WalletEvent}
    (hone : OneMasterKey env (World.new Key keypoolSize outcomes) master es) :
    ∃ master', AllKeys env master' (QuantumSafeManager.Matched env.lib)
      (walletRun env (World.new Key keypoolSize outcomes) es).keyState := by
  refine walletRun_allKeys (fun _ _ _ _ h => (QuantumSafeManager.matched_of_derivedKey h).1)
    (fun _ => True) QuantumSafeManager.matched_keptByCopies ?_ (allKeys_new _ _) hone fun _ _ _ _ => trivial
  exact fun _ mgr sighash o _ hmgr _ => hmgr.sign sighash o

end Byze
