import Byze.Wallet.PhraseState

/-! The recovery phrase over the runs of a wallet: what an unlocked wallet gives
back is what was last persisted, as long as no write fails while the wallet is
being set up or encrypted. -/

namespace Byze
open StateWp

/-- If the passphrase opens one of the master keys, it gives `key`. -/
def OpensOnly (cr : Crypter) (key : Uint256) (masterKeys : List (Nat × CMasterKey)) (passphrase : Bytes) : Prop :=
  ∀ entry ∈ masterKeys, ∀ plain, decryptMasterKey cr passphrase entry.2 = some plain → plain = key.val

theorem uint256_ne_nil (key : Uint256) : key.val ≠ [] := by
  intro hnil
  have hlen := key.property
  simp [hnil] at hlen

section
variable {Key : Type} (env : WalletEnv Key)

/-- The record holds the phrase, encrypted under `key` once there are master
keys. -/
structure PhraseStored (key : Uint256) (s : PhraseState) : Prop where
  absent : s.phrase = [] → s.stored = []
  plain : s.storedMasterKeys = [] → s.stored = s.phrase
  crypted : s.storedMasterKeys ≠ [] → s.phrase ≠ [] →
    env.crypter.encryptSecret key.val s.phrase (mnemonicWalletIv env) = some s.stored

structure PhraseOpen (key : Uint256) (s : PhraseState) : Prop extends PhraseStored env key s where
  isCrypted : s.mapMasterKeys = [] ↔ s.storedMasterKeys = []
  storage : s.storage = s.stored
  isEncrypted : s.isEncrypted = true ↔ s.stored ≠ [] ∧ s.storedMasterKeys ≠ []
  unlocked : s.vMasterKey = [] ∨ s.mapMasterKeys ≠ [] ∧ s.vMasterKey = key.val

/-- How an operation may stop early: what a crash leaves behind is the record. -/
def PhraseEnd (key : Uint256) (err : Abort) (w : World Key) : Prop :=
  PhraseStored env key w.phraseState ∧ (err ≠ .crash → PhraseOpen env key w.phraseState)

structure PhraseKept (key : Uint256) (w w' : World Key) : Prop where
  phrase : PhraseOpen env key w.phraseState → PhraseOpen env key w'.phraseState
  isCrypted : w.wallet.mapMasterKeys ≠ [] → w'.wallet.mapMasterKeys ≠ []
  later : Later w w'

def CryptedKept (key : Uint256) (w w' : World Key) : Prop :=
  w.wallet.mapMasterKeys ≠ [] → PhraseKept env key w w'

/-- No call into the database reports a failure. It may still crash. -/
def Unfailing (outcomes : Nat → Outcome) : Prop := ∀ n, (outcomes n).db ≠ .fails

variable {env} {key : Uint256} {w w' : World Key}

theorem PhraseKept.refl (w : World Key) : PhraseKept env key w w := ⟨id, id, Later.refl w⟩

theorem PhraseKept.trans {w'' : World Key} (h : PhraseKept env key w w')
    (h' : PhraseKept env key w' w'') : PhraseKept env key w w'' :=
  ⟨h'.phrase ∘ h.phrase, h'.isCrypted ∘ h.isCrypted, h.later.trans h'.later⟩

instance : Std.Refl (PhraseKept env key) := ⟨PhraseKept.refl⟩

instance : IsTrans (World Key) (PhraseKept env key) := ⟨fun _ _ _ => PhraseKept.trans⟩

instance : Std.Refl (CryptedKept env key) := ⟨fun w _ => PhraseKept.refl w⟩

instance : IsTrans (World Key) (CryptedKept env key) :=
  ⟨fun _ _ _ h h' hc => (h hc).trans (h' ((h hc).isCrypted hc))⟩

theorem KeepsPhrase.phraseOpen (h : KeepsPhrase w w') (ho : PhraseOpen env key w.phraseState) :
    PhraseOpen env key w'.phraseState := by
  rw [h.same]
  exact ho

theorem KeepsPhrase.isLocked (h : KeepsPhrase w w') : w'.wallet.isLocked = w.wallet.isLocked :=
  congrArg (fun s : PhraseState => !s.mapMasterKeys.isEmpty && s.vMasterKey.isEmpty) h.same

theorem KeepsPhrase.phraseKept (h : KeepsPhrase w w') : PhraseKept env key w w' := by
  refine ⟨h.phraseOpen, fun hc hm => hc ?_, h.later⟩
  have hmap : w'.phraseState.mapMasterKeys = w.phraseState.mapMasterKeys := by rw [h.same]
  exact hmap.symm.trans hm

theorem Along.phraseKept {α : Type} {c : WalletM Key α} (h : Along KeepsPhrase c) :
    Along (PhraseKept env key) c :=
  h.mono fun _ _ => KeepsPhrase.phraseKept

theorem Unfailing.later (h : Unfailing w.outcomes) (hl : Later w w') : Unfailing w'.outcomes := by
  obtain ⟨k, hk⟩ := hl
  intro n
  rw [hk]
  exact h (n + k)

theorem Unfailing.wp_dbWrite (h : Unfailing w.outcomes) {f : WalletDb → WalletDb}
    {Q : Bool → World Key → Prop} {E : Abort → World Key → Prop}
    (hok : Q true (w.tail.modifyDb f))
    (hcrash : E .crash w.tail) :
    wp (dbWrite f) Q E w := by
  simp only [dbWrite, dbCall, wp_bind, wp_nextOutcome]
  cases hdb : (w.outcomes 0).db with
  | succeeds => exact hok
  | fails => exact absurd hdb (h 0)
  | crashes => exact hcrash

variable (h : PhraseOpen env key w.phraseState)

include h in
theorem PhraseOpen.phraseEnd (err : Abort) :
    PhraseEnd env key err w :=
  ⟨h.toPhraseStored, fun _ => h⟩

include h in
theorem PhraseOpen.forget : PhraseOpen env key { w.phraseState with vMasterKey := [] } :=
  ⟨⟨h.absent, h.plain, h.crypted⟩, h.isCrypted, h.storage, h.isEncrypted, Or.inl rfl⟩

include h in
/-- As long as the wallet is not encrypted, no key is its master key. -/
theorem PhraseOpen.rekey (hmap : w.wallet.mapMasterKeys = []) (key' : Uint256) :
    PhraseOpen env key' w.phraseState := by
  have hstored : w.db.masterKeys = [] := h.isCrypted.mp hmap
  refine ⟨⟨h.absent, h.plain, fun hk => absurd hstored hk⟩, h.isCrypted, h.storage, h.isEncrypted, ?_⟩
  exact Or.inl (h.unlocked.resolve_right fun hk => hk.1 hmap)

include h in
theorem PhraseOpen.getWalletMnemonic (hl : w.wallet.isLocked = false) : getWalletMnemonic env w.wallet =
      if w.db.mnemonicPhrase = [] then none else some w.db.mnemonicPhrase := by
  have hstorage : w.wallet.mnemonicStorage = w.db.mnemonic := h.storage
  by_cases hp : w.db.mnemonicPhrase = []
  · have hstored : w.db.mnemonic = [] := h.absent hp
    simp [Byze.getWalletMnemonic, hstorage, hstored, hp]
  rw [if_neg hp]
  by_cases hk : w.db.masterKeys = []
  · have hstored : w.db.mnemonic = w.db.mnemonicPhrase := h.plain hk
    have hflag : w.wallet.mnemonicIsEncrypted = false :=
      Bool.eq_false_iff.mpr fun hf => (h.isEncrypted.mp hf).2 hk
    simp [Byze.getWalletMnemonic, hstorage, hstored, hp, hflag]
  · have hc := h.crypted hk hp
    have hstored : w.db.mnemonic ≠ [] := by
      intro hnil
      have := env.crypter.encryptSecret_length _ _ _ _ hp hc
      simp [World.phraseState, hnil] at this
    have hflag : w.wallet.mnemonicIsEncrypted = true := h.isEncrypted.mpr ⟨hstored, hk⟩
    have hmap : w.wallet.mapMasterKeys ≠ [] := fun hm => hk (h.isCrypted.mp hm)
    have hv : w.wallet.vMasterKey ≠ [] := by
      simpa [CWallet.isLocked, CWallet.isCrypted, hmap] using hl
    have hkey : w.wallet.vMasterKey = key.val := (h.unlocked.resolve_left hv).2
    have hdec : env.crypter.decryptSecret key.val w.db.mnemonic (mnemonicWalletIv env) =
        some w.db.mnemonicPhrase := env.crypter.decryptSecret_encryptSecret _ _ _ _ hp hc
    simpa [Byze.getWalletMnemonic, hstorage, hstored, hflag, hkey, uint256_ne_nil] using hdec

theorem PhraseStored.stored_ne (h : PhraseStored env key w.phraseState) (hk : w.db.masterKeys ≠ [])
    (hp : w.db.mnemonicPhrase ≠ []) : w.db.mnemonic ≠ w.db.mnemonicPhrase := by
  intro he
  have hc := env.crypter.encryptSecret_length _ _ _ _ hp (h.crypted hk hp)
  simp [World.phraseState, he] at hc

theorem lock_phraseKept : Along (PhraseKept env key) (lock : WalletM Key Bool) := by
  refine Along.get.bind fun w => .ite (.pure _) ?_
  exact .bind (.modify fun w => ⟨PhraseOpen.forget, id, Later.refl w⟩) fun _ => .pure _

theorem Along.cryptedKept {α : Type} {c : WalletM Key α} (h : Along (PhraseKept env key) c) :
    Along (CryptedKept env key) c :=
  h.mono fun _ _ hk _ => hk

theorem unlockWithKey_cryptedKept : Along (CryptedKept env key) (unlockWithKey env key.val) := by
  refine unlockWithKey_along (fun _ _ hk _ => hk.phraseKept)
    (.modify fun w hmap => ⟨fun h => ?_, id, Later.refl w⟩)
    (.modify fun w _ => ⟨PhraseOpen.forget, id, Later.refl w⟩)
  exact ⟨⟨h.absent, h.plain, h.crypted⟩, h.isCrypted, h.storage, h.isEncrypted, Or.inr ⟨hmap, rfl⟩⟩

theorem Along.phraseOpen {α : Type} {c : WalletM Key α} (hc : Along (PhraseKept env key) c)
    (h : PhraseOpen env key w.phraseState) :
    wp c (fun _ w' => PhraseKept env key w w') (fun err w' => PhraseEnd env key err w') w :=
  hc.wp_of (fun _ _ hk => hk) fun err _ hk => (hk.phrase h).phraseEnd err

include h in
theorem unlock_phraseOpen {passphrase : Bytes}
    (hopens : OpensOnly env.crypter key w.wallet.mapMasterKeys passphrase) :
    wp (unlock env passphrase) (fun _ w' => PhraseKept env key w w')
      (fun err w' => PhraseEnd env key err w') w := by
  simp only [unlock, wp_bind]
  by_cases hc : w.wallet.mapMasterKeys = []
  · rw [wp_get, hc]
    exact PhraseKept.refl w
  · have hgo : Along (CryptedKept env key) (unlockWithMasterKeys env passphrase w.wallet.mapMasterKeys) :=
      unlockWithMasterKeys_along fun entry he plain hd => by
        rw [hopens entry he plain hd]
        exact unlockWithKey_cryptedKept
    exact hgo.wp_of (fun _ _ hk => hk hc) fun err _ hk => ((hk hc).phrase h).phraseEnd err

section
variable (nID : Nat) (masterKey : CMasterKey)

theorem writeMasterKey_cryptedKept : Along (CryptedKept env key) (writeMasterKey nID masterKey) := by
  intro w
  refine wp_dbWrite (fun hmap => ⟨fun h => ?_, id, 1, rfl⟩) (fun _ => ⟨id, id, 1, rfl⟩)
    (fun _ => ⟨id, id, 1, rfl⟩)
  have hold : w.db.masterKeys ≠ [] := fun hk => hmap (h.isCrypted.mpr hk)
  have hnew : mapInsert nID masterKey w.db.masterKeys ≠ [] := List.cons_ne_nil _ _
  refine ⟨⟨h.absent, fun hk => absurd hk hnew, fun _ hp => h.crypted hold hp⟩, iff_of_false hmap hnew,
    h.storage, ?_, h.unlocked⟩
  exact h.isEncrypted.trans (and_congr_right fun _ => iff_of_true hold hnew)

theorem rememberMasterKey_cryptedKept : Along (CryptedKept env key) (modifyWallet fun wallet =>
      { wallet with mapMasterKeys := mapInsert nID masterKey wallet.mapMasterKeys }) := by
  intro w hmap
  have hnew : mapInsert nID masterKey w.wallet.mapMasterKeys ≠ [] := List.cons_ne_nil _ _
  refine ⟨fun h => ?_, fun _ => hnew, Later.refl w⟩
  exact ⟨⟨h.absent, h.plain, h.crypted⟩, iff_of_false hnew fun hk => hmap (h.isCrypted.mpr hk), h.storage,
    h.isEncrypted, h.unlocked.imp_right fun hk => ⟨hnew, hk.2⟩⟩
end

theorem changeWalletPassphrase_go_cryptedKept {masterKeys : List (Nat × CMasterKey)} {old : Bytes}
    (new : Bytes) (wasLocked : Bool) (hopens : OpensOnly env.crypter key masterKeys old) :
    Along (CryptedKept env key) (changeWalletPassphrase.go env old new wasLocked masterKeys) := by
  refine changeWalletPassphrase_go_along (Along.cryptedKept (Along.phraseKept nextOutcome_leaves))
    (Along.cryptedKept lock_phraseKept) fun entry he plain hd => ?_
  rw [hopens entry he plain hd]
  exact ⟨unlockWithKey_cryptedKept, fun _ masterKey _ =>
    ⟨rememberMasterKey_cryptedKept entry.1 masterKey, writeMasterKey_cryptedKept entry.1 masterKey⟩⟩

variable {old : Bytes} (new : Bytes) (hopens : OpensOnly env.crypter key w.wallet.mapMasterKeys old)

include hopens in
theorem changeWalletPassphrase_cryptedKept (hc : w.wallet.mapMasterKeys ≠ []) :
    wp (changeWalletPassphrase env old new) (fun _ w' => PhraseKept env key w w')
      (fun _ w' => PhraseKept env key w w') w := by
  simp only [changeWalletPassphrase, wp_bind]
  have hgo := changeWalletPassphrase_go_cryptedKept new w.wallet.isLocked hopens
  refine lock_phraseKept.wp_of (fun _ w' hk => ?_) fun _ _ hk => hk
  exact hgo.wp_of (fun _ _ hk' => hk.trans (hk' (hk.isCrypted hc)))
    fun _ _ hk' => hk.trans (hk' (hk.isCrypted hc))

include h hopens in
theorem changeWalletPassphrase_phraseOpen :
    wp (changeWalletPassphrase env old new) (fun _ w' => PhraseKept env key w w')
      (fun err w' => PhraseEnd env key err w') w := by
  by_cases hc : w.wallet.mapMasterKeys = []
  · have hlock : w.wallet.isCrypted = false := by simp [CWallet.isCrypted, hc]
    simp only [changeWalletPassphrase, wp_bind, wp_get, lock, hlock, hc]
    exact PhraseKept.refl w
  · exact wp_mono (changeWalletPassphrase_cryptedKept new hopens hc) (fun _ _ hk => hk)
      fun err _ hk => (hk.phrase h).phraseEnd err

include h in
theorem persistWalletMnemonic_phraseOpen
    (hl : w.wallet.isLocked = false) {mnemonic : Bytes} (hm : mnemonic ≠ []) :
    wp (persistWalletMnemonic env mnemonic) (fun stored w' => (stored = true → PhraseKept env key w w') ∧
        (stored = false → KeepsPhrase w w'))
      (fun _ w' => KeepsPhrase w w') w := by
  simp only [persistWalletMnemonic, wp_bind, wp_get]
  by_cases hc : w.wallet.mapMasterKeys = []
  · have hs : w.db.masterKeys = [] := h.isCrypted.mp hc
    have henc : w.wallet.encrypting = false := by simp [CWallet.encrypting, CWallet.isCrypted, hc]
    simp only [henc, Bool.false_eq_true, if_false, wp_bind]
    refine wp_dbWrite ?_ ?_ (nextOutcome_leaves w)
    · refine ⟨fun _ => ⟨fun _ => ?_, id, 1, rfl⟩, fun hf => Bool.noConfusion hf⟩
      refine ⟨⟨fun hp => absurd hp hm, fun _ => rfl, fun hk => absurd hs hk⟩, h.isCrypted, rfl, ?_,
        h.unlocked⟩
      exact iff_of_false Bool.false_ne_true fun hf => hf.2 hs
    · exact ⟨fun hf => Bool.noConfusion hf, fun _ => nextOutcome_leaves w⟩
  · have hs : w.db.masterKeys ≠ [] := fun hk => hc (h.isCrypted.mpr hk)
    have hv : w.wallet.vMasterKey ≠ [] := by
      simpa [CWallet.isLocked, CWallet.isCrypted, hc] using hl
    have hkey : w.wallet.vMasterKey = key.val := (h.unlocked.resolve_left hv).2
    have henc : w.wallet.encrypting = true := by
      simp [CWallet.encrypting, CWallet.isCrypted, hc, hv]
    simp only [henc, if_true]
    cases he : env.crypter.encryptSecret w.wallet.vMasterKey mnemonic (mnemonicWalletIv env) with
    | none => exact ⟨fun hf => Bool.noConfusion hf, fun _ => ⟨rfl, Later.refl w⟩⟩
    | some payload =>
      rw [hkey] at he
      have hpayload : payload ≠ [] := by
        rintro rfl
        exact absurd (env.crypter.encryptSecret_length _ _ _ _ hm he) (Nat.not_lt_zero _)
      simp only [wp_bind]
      refine wp_dbWrite ?_ ?_ (nextOutcome_leaves w)
      · refine ⟨fun _ => ⟨fun _ => ?_, id, 1, rfl⟩, fun hf => Bool.noConfusion hf⟩
        refine ⟨⟨fun hp => absurd hp hm, fun hk => absurd hk hs, fun _ _ => he⟩, h.isCrypted, rfl, ?_,
          h.unlocked⟩
        exact iff_of_true rfl ⟨hpayload, hs⟩
      · exact ⟨fun hf => Bool.noConfusion hf, fun _ => nextOutcome_leaves w⟩

theorem setupDescriptorScriptPubKeyMansFrom_unlocked (master : CExtKey) :
    wp (setupDescriptorScriptPubKeyMansFrom env master)
      (fun _ w' => KeepsPhrase w w' ∧ w.wallet.isLocked = false) (fun _ w' => KeepsPhrase w w') w := by
  refine wp_setupDescriptorScriptPubKeyMansFrom (fun _ _ h => h.phraseOf) fun t ht hl => ?_
  refine (Along.keepsPhrase_of_rest (persistQuantumKeyMaterialFromHdMaster_keepsRest master false)).wp_of
    (fun ok u hu v hv => ?_) fun _ u hu => trans_of KeepsPhrase ht.phraseOf hu
  have hkeeps := trans_of KeepsPhrase ht.phraseOf (trans_of KeepsPhrase hu hv.phraseOf)
  exact ⟨fun _ => ⟨hkeeps, hl⟩, fun _ => hkeeps⟩

section

include h

theorem setupDescriptorScriptPubKeyMansFromEntropy_phraseOpen (entropy : Uint256) :
    wp (setupDescriptorScriptPubKeyMansFromEntropy env entropy)
      (fun _ w' => PhraseKept env key w w') (fun _ w' => KeepsPhrase w w') w := by
  refine wp_ite (fun _ => wp_ite (fun _ => PhraseKept.refl w) fun _ => ⟨rfl, Later.refl w⟩) fun _ => ?_
  refine wp_ite (fun _ => ⟨rfl, Later.refl w⟩) fun _ => ?_
  cases env.masterExtKeyFromEntropy entropy with
  | none => exact ⟨rfl, Later.refl w⟩
  | some master =>
    simp only [wp_bind]
    refine wp.imp (setupDescriptorScriptPubKeyMansFrom_unlocked master) ?_
    rintro _ w₁ ⟨hk, hl⟩
    refine wp_mono (persistWalletMnemonic_phraseOpen (hk.phraseOpen h) (hk.isLocked.trans hl)
      (env.encodeMnemonic_ne_nil entropy)) ?_ fun _ _ hk' => trans_of KeepsPhrase hk hk'
    rintro (_ | _) w₂ ⟨hkept, hkeeps⟩
    · exact trans_of KeepsPhrase hk (hkeeps rfl)
    · exact hk.phraseKept.trans (hkept rfl)

theorem PhraseOpen.restore (hk : KeepsPhrase w w') (err : Abort) :
    PhraseEnd env key err { w' with db := w.db } := by
  refine PhraseOpen.phraseEnd ?_ err
  rw [World.phraseState_restore hk.same]
  exact h

theorem setupFromEntropy_phraseOpen (hu : Unfailing w.outcomes) (entropy : Uint256) :
    wp (setupFromEntropy env entropy) (fun _ w' => PhraseKept env key w w')
      (fun err w' => PhraseEnd env key err w') w := by
  simp only [setupFromEntropy, runWithinTxn, wp_bind]
  refine hu.wp_dbWrite ?_ (h.phraseEnd .crash)
  simp only [if_true, wp_bind, wp_get, wp_restoringDb]
  have hk₁ : PhraseKept env key w (World.modifyDb id w.tail) := ⟨id, id, 1, rfl⟩
  have h₁ := hk₁.phrase h
  refine wp_mono (setupDescriptorScriptPubKeyMansFromEntropy_phraseOpen h₁ entropy) ?_ ?_
  · rintro _ w₂ hk₂
    have hk := hk₁.trans hk₂
    refine (hu.later hk.later).wp_dbWrite ?_ ?_
    · exact hk.trans ⟨id, id, 1, rfl⟩
    · exact ⟨⟨h₁.absent, h₁.plain, h₁.crypted⟩, fun hne => absurd rfl hne⟩
  · intro err w₂ hk
    exact h₁.restore hk err

theorem setupDescriptorScriptPubKeyMans_phraseOpen (hu : Unfailing w.outcomes) :
    wp (setupDescriptorScriptPubKeyMans env) (fun _ w' => PhraseKept env key w w')
      (fun err w' => PhraseEnd env key err w') w := by
  simp only [setupDescriptorScriptPubKeyMans, wp_bind, wp_nextOutcome]
  have hk : PhraseKept env key w w.tail := ⟨id, id, 1, rfl⟩
  refine wp.imp (setupFromEntropy_phraseOpen (hk.phrase h) (hu.later hk.later) _) ?_
  intro ok w' hk'
  exact wp_ite (fun _ => hk.trans hk') fun _ => (hk'.phrase h).phraseEnd _
end

def OnlyCrashes {α : Type} (c : WalletM Key α) : Prop :=
  ∀ w, wp c (fun _ _ => True) (fun err _ => err = .crash) w

theorem OnlyCrashes.walk : Walk fun _ (c : WalletM Key _) => OnlyCrashes c where
  pure _ _ := trivial
  crash _ := rfl
  bind hc hk w := by
    exact wp.seq (hc w) (fun a w' _ => hk a w')
  get _ hk w := hk w w

theorem encryptSecrets_onlyCrashes (plainMasterKey : Bytes) (nID : Nat) (masterKey : CMasterKey) :
    OnlyCrashes (encryptSecrets env plainMasterKey nID masterKey) :=
  encryptSecrets_walk_of_steps OnlyCrashes.walk (fun _ _ => wp_dbWrite trivial trivial rfl) (fun _ _ => trivial)
    plainMasterKey nID masterKey

theorem encryptQuantumKeysForWallet_keepsPhrase (masterKey : Bytes) :
    Along KeepsPhrase (encryptQuantumKeysForWallet env masterKey) :=
  Along.keepsPhrase_of_rest (encryptQuantumKeysForWallet_walk (Walk.along _) (writeQuantum_keepsRest _)
    KeyChange.keepsRest masterKey)

structure PhrasePlain (s : PhraseState) : Prop where
  stored : s.stored = s.phrase
  storage : s.storage = s.phrase
  isEncrypted : s.isEncrypted = false

include h in
theorem PhraseOpen.phrasePlain (hc : w.wallet.mapMasterKeys = []) : PhrasePlain w.phraseState := by
  have hs : w.db.masterKeys = [] := h.isCrypted.mp hc
  exact ⟨h.plain hs, h.storage.trans (h.plain hs), Bool.eq_false_iff.mpr fun hf => (h.isEncrypted.mp hf).2 hs⟩

theorem encryptWalletMnemonicForWallet_phraseOpen {nID : Nat} {masterKey : CMasterKey}
    (hp : PhrasePlain w.phraseState) (hstored : w.db.masterKeys = [(nID, masterKey)])
    (hmap : w.wallet.mapMasterKeys = [(nID, masterKey)]) (hu : Unfailing w.outcomes) :
    wp (encryptWalletMnemonicForWallet env key.val) (fun ok w' => Later w w' ∧
        (ok = true → PhraseOpen env key { w'.phraseState with vMasterKey := [] } ∧
          w'.wallet.mapMasterKeys = [(nID, masterKey)]))
      (fun _ _ => True) w := by
  have hne : [(nID, masterKey)] ≠ [] := List.cons_ne_nil _ _
  have hstorage : w.wallet.mnemonicStorage = w.db.mnemonicPhrase := hp.storage
  have hflag : w.wallet.mnemonicIsEncrypted = false := hp.isEncrypted
  simp only [encryptWalletMnemonicForWallet, wp_bind, wp_get, hstorage, hflag]
  by_cases hphrase : w.db.mnemonicPhrase = []
  · simp only [hphrase]
    refine ⟨Later.refl w, fun _ => ⟨⟨⟨?_, ?_, ?_⟩, ?_, ?_, ?_, Or.inl rfl⟩, hmap⟩⟩
    all_goals simp only [World.phraseState, hstored, hmap]
    · exact fun _ => hp.stored.trans hphrase
    · exact fun hk => absurd hk hne
    · exact fun _ hf => absurd hphrase hf
    · exact hp.storage.trans hp.stored.symm
    · refine iff_of_false ?_ fun hf => hf.1 (hp.stored.trans hphrase)
      simp [hflag]
  · have hnil : ¬ w.db.mnemonicPhrase.isEmpty = true := by simpa using hphrase
    simp only [if_neg hnil, Bool.false_eq_true, if_false]
    cases he : env.crypter.encryptSecret key.val w.db.mnemonicPhrase (mnemonicWalletIv env) with
    | none => exact ⟨Later.refl w, fun hf => Bool.noConfusion hf⟩
    | some cipher =>
      have hcipher : cipher ≠ [] := by
        rintro rfl
        exact absurd (env.crypter.encryptSecret_length _ _ _ _ hphrase he) (Nat.not_lt_zero _)
      simp only [wp_bind]
      refine hu.wp_dbWrite ?_ trivial
      refine ⟨⟨1, rfl⟩, fun _ => ⟨⟨⟨?_, ?_, ?_⟩, ?_, rfl, ?_, Or.inl rfl⟩, hmap⟩⟩
      all_goals simp only [World.phraseState, World.modifyDb, World.modifyWallet, hstored, hmap]
      · exact fun hf => absurd hf hphrase
      · exact fun hk => absurd hk hne
      · exact fun _ _ => he
      · exact iff_of_true trivial ⟨hcipher, hne⟩

theorem encryptSecrets_phraseOpen {nID : Nat} {masterKey : CMasterKey} (hp : PhrasePlain w.phraseState) (hstored : w.db.masterKeys = [])
    (hmap : w.wallet.mapMasterKeys = [(nID, masterKey)]) (hu : Unfailing w.outcomes) :
    wp (encryptSecrets env key.val nID masterKey)
      (fun _ w' => Later w w' ∧ PhraseOpen env key { w'.phraseState with vMasterKey := [] } ∧
        w'.wallet.mapMasterKeys = [(nID, masterKey)])
      (fun err _ => err = .crash) w := by
  suffices h : wp (encryptSecrets env key.val nID masterKey)
      (fun _ w' => Later w w' ∧ PhraseOpen env key { w'.phraseState with vMasterKey := [] } ∧
        w'.wallet.mapMasterKeys = [(nID, masterKey)]) (fun _ _ => True) w by
    exact wp_mono (wp_and h (encryptSecrets_onlyCrashes key.val nID masterKey w)) (fun _ _ h => h.1)
      fun _ _ h => h.2
  simp only [encryptSecrets, wp_bind]
  refine hu.wp_dbWrite ?_ trivial
  have hlater₁ : Later w (World.modifyDb
      (fun db => { db with masterKeys := mapInsert nID masterKey db.masterKeys })
      w.tail) := ⟨1, rfl⟩
  have hp₁ : PhrasePlain (World.phraseState (World.modifyDb
      (fun db => { db with masterKeys := mapInsert nID masterKey db.masterKeys })
      w.tail)) := ⟨hp.stored, hp.storage, hp.isEncrypted⟩
  have hstored₁ : (World.modifyDb (fun db => { db with masterKeys := mapInsert nID masterKey db.masterKeys })
      w.tail).db.masterKeys = [(nID, masterKey)] := by
    simp [World.modifyDb, hstored, mapInsert]
  have hmap₁ : (World.modifyDb (fun db => { db with masterKeys := mapInsert nID masterKey db.masterKeys })
      w.tail).wallet.mapMasterKeys = [(nID, masterKey)] := hmap
  generalize World.modifyDb (fun db => { db with masterKeys := mapInsert nID masterKey db.masterKeys })
    w.tail = w₁ at hlater₁ hp₁ hstored₁ hmap₁ ⊢
  refine (Along.phraseOf (encryptSpkms_keepsSecrets _ _)).wp_of (fun _ w₂ h₂ => ?_) fun _ _ _ => trivial
  refine (encryptQuantumKeysForWallet_keepsPhrase _).wp_of (fun _ w₃ h₃ => ?_) fun _ _ _ => trivial
  refine wp_ite (fun _ => ?_) fun _ => trivial
  have hk : KeepsPhrase w₁ w₃ := trans_of KeepsPhrase h₂ h₃
  have hlater₃ : Later w w₃ := hlater₁.trans hk.later
  have hp₃ : PhrasePlain w₃.phraseState := by
    rw [hk.same]
    exact hp₁
  have hstored₃ := congrArg PhraseState.storedMasterKeys hk.same
  have hmap₃ := congrArg PhraseState.mapMasterKeys hk.same
  simp only [wp_bind]
  refine wp_mono (encryptWalletMnemonicForWallet_phraseOpen hp₃ (hstored₃.trans hstored₁)
    (hmap₃.trans hmap₁) (hu.later hlater₃)) ?_ fun _ _ h => h
  rintro _ w₄ ⟨hlater₄, hopen⟩
  refine wp_ite (fun hok => ?_) fun _ => trivial
  obtain ⟨ho, hone⟩ := hopen hok
  simp only [wp_bind]
  refine wp_dbWrite ?_ trivial trivial
  exact ⟨hlater₃.trans (hlater₄.trans ⟨1, rfl⟩), ho, hone⟩

theorem lock_phraseOpen (ho : PhraseOpen env key { w.phraseState with vMasterKey := [] })
    (hmap : w.wallet.mapMasterKeys ≠ []) :
    wp lock (fun _ w' => PhraseOpen env key w'.phraseState ∧ Later w w' ∧
      w'.wallet.mapMasterKeys = w.wallet.mapMasterKeys) (fun _ _ => False) w := by
  have hc : w.wallet.isCrypted = true := by simp [CWallet.isCrypted, hmap]
  simp only [lock, wp_bind, wp_get, hc]
  exact ⟨ho, Later.refl w, rfl⟩

include h in
theorem setupIfBlank_phraseOpen (hu : Unfailing w.outcomes) :
    wp (setupIfBlank env) (fun _ w' => PhraseKept env key w w')
      (fun err w' => PhraseEnd env key err w') w := by
  exact wp_ite (fun _ => setupDescriptorScriptPubKeyMans_phraseOpen h hu) fun _ => PhraseKept.refl w

/-- Encrypting ends with the wallet locked, and set up if it was blank. -/
def finishEncryption (env : WalletEnv Key) (passphrase : Bytes) : WalletM Key Bool := do
  let _ ← lock
  let _ ← unlock env passphrase
  setupIfBlank env
  let _ ← lock
  pure true

/-- The wallet when its secrets are about to be encrypted. -/
def World.remembering (w : World Key) (masterKey : CMasterKey) : World Key :=
  World.modifyWallet (fun wallet => { wallet with
      nMasterKeyMaxID := w.wallet.nMasterKeyMaxID + 1
      mapMasterKeys := mapInsert (w.wallet.nMasterKeyMaxID + 1) masterKey wallet.mapMasterKeys })
    { w with outcomes := fun n => w.outcomes (n + 1 + 1) }

theorem wp_encryptWallet {passphrase : Bytes} {Q : Bool → World Key → Prop} {E : Abort → World Key → Prop}
    (hrefused : ∀ outcomes, Q false { w with outcomes := outcomes })
    (hgo : ∀ masterKey, w.wallet.mapMasterKeys = [] →
      (w.remembering masterKey).wallet.mapMasterKeys = [(w.wallet.nMasterKeyMaxID + 1, masterKey)] →
      OpensOnly env.crypter (w.outcomes 0).random (w.remembering masterKey).wallet.mapMasterKeys passphrase →
      wp (dbWrite fun db => db) (fun ok t => if ok then
          wp (encryptSecrets env (w.outcomes 0).random.val (w.wallet.nMasterKeyMaxID + 1) masterKey)
            (fun _ => wp (finishEncryption env passphrase) Q E) (fun e u => E e { u with db := t.db }) t
        else Q false t) E (w.remembering masterKey)) :
    wp (encryptWallet env passphrase) Q E w := by
  refine wp_ite (fun _ => hrefused w.outcomes) fun hcrypted => ?_
  have hmap : w.wallet.mapMasterKeys = [] := by simpa [CWallet.isCrypted] using hcrypted
  simp only [wp_bind, wp_nextOutcome]
  cases hm : encryptMasterKey env.crypter passphrase (w.outcomes 0).random.val
      ((w.outcomes 1).random.val.take walletCryptoSaltSize) (w.outcomes 1).deriveIterations with
  | none => exact hrefused _
  | some masterKey =>
    have hone : (w.remembering masterKey).wallet.mapMasterKeys = [(w.wallet.nMasterKeyMaxID + 1, masterKey)] := by
      simp [World.remembering, World.modifyWallet, hmap, mapInsert]
    simp only [modifyWallet, wp_bind, wp_modify]
    refine wp.imp (hgo masterKey hmap hone fun entry hentry plain hplain => ?_) (fun ok t ht => ?_)
    · -- The passphrase is the one that the master key was just sealed with.
      rw [hone, List.mem_singleton] at hentry
      rw [hentry, decryptMasterKey_encryptMasterKey (uint256_ne_nil _) hm] at hplain
      exact (Option.some.inj hplain).symm
    · cases ok with
      | false => exact ht
      | true =>
        rw [if_pos rfl, wp_bind, wp_get, wp_bind, wp_restoringDb]
        exact ht

theorem finishEncryption_phraseOpen (ho : PhraseOpen env key { w.phraseState with vMasterKey := [] })
    (hmap : w.wallet.mapMasterKeys ≠ []) (hu : Unfailing w.outcomes) {passphrase : Bytes}
    (hopens : OpensOnly env.crypter key w.wallet.mapMasterKeys passphrase) :
    wp (finishEncryption env passphrase)
      (fun _ w' => PhraseOpen env key w'.phraseState ∧ w'.wallet.mapMasterKeys ≠ [])
      (fun err w' => PhraseEnd env key err w') w := by
  simp only [finishEncryption, wp_bind]
  refine wp_mono (lock_phraseOpen ho hmap) ?_ fun _ _ h => h.elim
  rintro _ w₁ ⟨h₁, hlater₁, hmap₁⟩
  rw [← hmap₁] at hopens hmap
  refine wp.imp (unlock_phraseOpen h₁ hopens) ?_
  intro _ w₂ hk₂
  have h₂ := hk₂.phrase h₁
  refine wp.imp (setupIfBlank_phraseOpen h₂ (hu.later (hlater₁.trans hk₂.later))) ?_
  intro _ w₃ hk₃
  have h₃ := hk₃.phrase h₂
  have hmap₃ := hk₃.isCrypted (hk₂.isCrypted hmap)
  refine wp_mono (lock_phraseOpen h₃.forget hmap₃) ?_ fun _ _ h => h.elim
  rintro _ w₄ ⟨h₄, _, hmap₄⟩
  exact ⟨h₄, hmap₄ ▸ hmap₃⟩

/-- The master key after an attempt to encrypt the wallet, which draws a new one
for a wallet that has none. -/
def drawnMasterKey (w : World Key) (key : Uint256) : Uint256 :=
  if w.wallet.isCrypted then key else (w.outcomes 0).random

include h in
theorem encryptWallet_phraseOpen (hu : Unfailing w.outcomes) (passphrase : Bytes) :
    wp (encryptWallet env passphrase) (fun ok w' => PhraseOpen env (drawnMasterKey w key) w'.phraseState ∧
        (ok = true → w'.wallet.mapMasterKeys ≠ []))
      (PhraseEnd env (drawnMasterKey w key)) w := by
  have hkeep : PhraseOpen env (drawnMasterKey w key) w.phraseState := by
    rw [drawnMasterKey]
    split
    · exact h
    next hc => exact h.rekey (by simpa [CWallet.isCrypted] using hc) _
  refine wp_encryptWallet (fun _ => ⟨hkeep, fun hf => Bool.noConfusion hf⟩) fun masterKey hmap hone hopens => ?_
  have hstored : w.db.masterKeys = [] := h.isCrypted.mp hmap
  have hdrawn : drawnMasterKey w key = (w.outcomes 0).random := if_neg (by simp [CWallet.isCrypted, hmap])
  rw [hdrawn] at hkeep ⊢
  have hcrash : ∀ w' : World Key, w'.db = w.db → PhraseEnd env (w.outcomes 0).random .crash w' := by
    intro w' hdb
    refine ⟨⟨?_, ?_, ?_⟩, fun hne => absurd rfl hne⟩
    all_goals simp only [World.phraseState, hdb]
    · exact hkeep.absent
    · exact hkeep.plain
    · exact hkeep.crypted
  have hp := h.phrasePlain hmap
  have hp₁ : PhrasePlain (w.remembering masterKey).phraseState := ⟨hp.stored, hp.storage, hp.isEncrypted⟩
  have hu₁ : Unfailing (w.remembering masterKey).outcomes := hu.later ⟨2, rfl⟩
  refine hu₁.wp_dbWrite ?_ (hcrash _ rfl)
  have hu₂ : Unfailing (World.modifyDb (fun db => db) (w.remembering masterKey).tail).outcomes := hu₁.later ⟨1, rfl⟩
  refine wp_mono (encryptSecrets_phraseOpen hp₁ hstored hone hu₂) ?_ ?_
  · rintro _ w₃ ⟨hlater₃, ho, hmap₃⟩
    rw [hone, ← hmap₃] at hopens
    refine wp.imp (finishEncryption_phraseOpen ho (by simp [hmap₃]) (hu₂.later hlater₃) hopens) ?_
    rintro _ w₄ ⟨h₄, hmap₄⟩
    exact ⟨h₄, fun _ => hmap₄⟩
  · rintro _ w₃ rfl
    exact hcrash _ rfl

theorem readWallet_phraseOpen (h : PhraseStored env key w.phraseState) {keypoolSize : Nat}
    {wallet : CWallet Key} (hr : readWallet w.db keypoolSize = some wallet) :
    PhraseOpen env key (w.modifyWallet fun _ => wallet).phraseState := by
  obtain ⟨spkms, -, hr⟩ := Option.bind_eq_some_iff.mp hr
  obtain ⟨-, hr⟩ := Option.ite_none_right_eq_some.mp hr
  obtain rfl := Option.some.inj hr
  refine ⟨⟨h.absent, h.plain, h.crypted⟩, Iff.rfl, rfl, ?_, Or.inl rfl⟩
  simp [World.modifyWallet, World.phraseState]

/-- The invariant of the runs. A wallet that is not loaded has a record only. -/
def PhraseInv (env : WalletEnv Key) (key : Uint256) (w : World Key) : Prop :=
  PhraseStored env key w.phraseState ∧ (w.wallet.loaded = true → PhraseOpen env key w.phraseState)

def PhraseAbort (env : WalletEnv Key) (key : Uint256) (err : Abort) (w : World Key) : Prop :=
  PhraseInv env key (closeWallet w) ∧ (err ≠ .crash → PhraseInv env key w)

theorem PhraseOpen.phraseInv (h : PhraseOpen env key w.phraseState) : PhraseInv env key w :=
  ⟨h.toPhraseStored, fun _ => h⟩

theorem PhraseStored.closeWallet (h : PhraseStored env key w.phraseState) : PhraseInv env key (closeWallet w) :=
  ⟨⟨h.absent, h.plain, h.crypted⟩, fun hl => Bool.noConfusion hl⟩

theorem PhraseEnd.phraseAbort {err : Abort} (h : PhraseEnd env key err w) :
    PhraseAbort env key err w :=
  ⟨h.1.closeWallet, fun hne => (h.2 hne).phraseInv⟩

theorem PhraseOpen.phraseAbort (h : PhraseOpen env key w.phraseState) (err : Abort) :
    PhraseAbort env key err w :=
  (h.phraseEnd err).phraseAbort

theorem loadWallet_phraseInv (h : PhraseStored env key w.phraseState) :
    wp (loadWallet env) (fun _ => PhraseInv env key) (PhraseAbort env key) w := by
  simp only [loadWallet, wp_bind, wp_get]
  cases hr : readWallet w.db w.wallet.keypoolSize with
  | none => exact h.closeWallet
  | some wallet =>
    have ho := readWallet_phraseOpen h hr
    simp only [wp_bind]
    refine (Along.keepsPhrase_of_rest loadQuantumRecordsFromDatabase_keepsRest).wp_of ?_
      fun err _ hk => (hk.phraseOpen ho).phraseAbort err
    intro err w₁ hk₁
    have h₁ := hk₁.phraseOpen ho
    refine wp_ite (fun _ => h₁.closeWallet) fun _ => ?_
    rw [wp_bind, wp_onAbort]
    refine (Along.keepsPhrase topUpKeyPool_keeps).wp_of (fun _ _ hk₂ => (hk₂.phraseOpen h₁).phraseInv) ?_
    intro err w₂ hk₂
    have hclosed := (hk₂.phraseOpen h₁).toPhraseStored.closeWallet
    exact ⟨hclosed, fun _ => hclosed⟩

theorem Along.phraseInv_unit {c : WalletM Key PUnit} (hc : Along KeepsPhrase c)
    (h : PhraseOpen env key w.phraseState) : wp c (fun _ => PhraseInv env key) (PhraseAbort env key) w :=
  hc.wp_of (fun _ _ hk => (hk.phraseOpen h).phraseInv) fun err _ hk => (hk.phraseOpen h).phraseAbort err

theorem Along.phraseInv {α : Type} {c : WalletM Key α} (hc : Along KeepsPhrase c)
    (h : PhraseOpen env key w.phraseState) :
    wp (do let _ ← c) (fun _ => PhraseInv env key) (PhraseAbort env key) w :=
  Along.phraseInv_unit (hc.bind fun _ => .pure _) h

theorem PhraseOpen.wp_phraseInv {α : Type} {c : WalletM Key α} (h : PhraseOpen env key w.phraseState)
    (hc : wp c (fun _ w' => PhraseKept env key w w') (fun err w' => PhraseEnd env key err w') w) :
    wp (do let _ ← c) (fun _ => PhraseInv env key) (PhraseAbort env key) w := by
  rw [wp_bind]
  exact wp_mono hc (fun _ _ hk => (hk.phrase h).phraseInv) fun _ _ he => he.phraseAbort

def WalletOp.writesPhrase : WalletOp → Bool
  | .setup => true
  | .restore _ => true
  | .encrypt _ => true
  | _ => false

/-- The passphrase that an operation opens the master keys with. -/
def WalletOp.passphrase : WalletOp → Option Bytes
  | .unlock passphrase => some passphrase
  | .changePassphrase old _ => some old
  | _ => none

def WalletOp.draws : WalletOp → Bool
  | .encrypt _ => true
  | _ => false

/-- The master key after an operation, if `key` has been it before. -/
def masterKeyAfter (op : WalletOp) (w : World Key) (key : Uint256) : Uint256 :=
  if op.draws && w.wallet.loaded then drawnMasterKey w key else key

theorem runOp_phraseInv {op : WalletOp} (h : PhraseInv env key w)
    (hl : w.wallet.loaded = true ∨ op.isReload = true)
    (hu : op.writesPhrase = true → Unfailing w.outcomes)
    (hopens : ∀ p ∈ op.passphrase, OpensOnly env.crypter key w.wallet.mapMasterKeys p) :
    wp (runOp env op) (fun _ => PhraseInv env (masterKeyAfter op w key))
      (PhraseAbort env (masterKeyAfter op w key)) w := by
  obtain ⟨hstored, hopen⟩ := h
  by_cases hr : op.isReload = true
  · obtain rfl : op = .reload := by
      cases op <;> first | rfl | cases hr
    rw [runOp, wp_bind]
    exact loadWallet_phraseInv hstored
  have hloaded := hl.resolve_right hr
  have ho := hopen hloaded
  cases op with
  | reload => exact absurd rfl hr
  | newAddress internal => exact Along.phraseInv (getNewAddress_along keepsPhrase_addressSteps internal) ho
  | newDestination internal => exact Along.phraseInv (getNewDestination_along keepsPhrase_addressSteps internal) ho
  | keypoolRefill => exact Along.phraseInv_unit (Along.keepsPhrase topUpKeyPool_keeps) ho
  | sign sighash outputProgram =>
    exact Along.phraseInv (signQuantumTransactionSighash_keepsPhrase sighash outputProgram) ho
  | lock => exact ho.wp_phraseInv (Along.phraseOpen lock_phraseKept ho)
  | unlock passphrase => exact ho.wp_phraseInv (unlock_phraseOpen ho (hopens _ rfl))
  | encrypt passphrase =>
    have hafter : masterKeyAfter (.encrypt passphrase) w key = drawnMasterKey w key := if_pos hloaded
    rw [hafter, runOp, wp_bind]
    exact wp_mono (encryptWallet_phraseOpen ho (hu rfl) passphrase) (fun _ _ h' => h'.1.phraseInv)
      fun _ _ h' => h'.phraseAbort
  | changePassphrase old new =>
    exact ho.wp_phraseInv (changeWalletPassphrase_phraseOpen ho new (hopens _ rfl))
  | setup =>
    exact wp_mono (setupDescriptorScriptPubKeyMans_phraseOpen ho (hu rfl))
      (fun _ _ hk => (hk.phrase ho).phraseInv) fun _ _ he => he.phraseAbort
  | restore entropy => exact ho.wp_phraseInv (setupFromEntropy_phraseOpen ho (hu rfl) entropy)
  | payment script => exact Along.phraseInv_unit (markScriptUsed_along keepsPhrase_addressSteps script) ho
  | importDescriptor desc keys active internal =>
    exact Along.phraseInv_unit (Along.phraseOf (importDescriptorUnlocked_keepsSecrets desc keys active internal)) ho

def eventKey (w : World Key) (e : WalletEvent) (key : Uint256) : Uint256 :=
  masterKeyAfter e.op { w with outcomes := e.outcomes } key

theorem walletStep_phraseInv {e : WalletEvent} (h : PhraseInv env key w)
    (hu : e.op.writesPhrase = true → Unfailing e.outcomes)
    (hopens : ∀ p ∈ e.op.passphrase, OpensOnly env.crypter key w.wallet.mapMasterKeys p) :
    PhraseInv env (eventKey w e key) (walletStep env w e) := by
  simp only [walletStep]
  split
  next hl =>
    have hstep : wp (runOp env e.op) (fun _ => PhraseInv env (eventKey w e key))
        (PhraseAbort env (eventKey w e key)) { w with outcomes := e.outcomes } :=
      runOp_phraseInv h (Bool.or_eq_true_iff.mp hl) hu hopens
    simp only [wp] at hstep
    split <;> rename_i hrun <;> rw [hrun] at hstep
    · exact hstep
    · exact hstep.1
    · exact hstep.2 (by simp)
  next hidle =>
    have hclosed : w.wallet.loaded = false := by
      cases hl : w.wallet.loaded
      · rfl
      · simp [hl] at hidle
    simpa [eventKey, masterKeyAfter, hclosed] using h

theorem phraseInv_new (key : Uint256) (keypoolSize : Nat) (outcomes : Nat → Outcome) :
    PhraseInv env key (World.new Key keypoolSize outcomes) := by
  have h : PhraseOpen env key (World.new Key keypoolSize outcomes).phraseState :=
    ⟨⟨fun _ => rfl, fun _ => rfl, fun hk => absurd rfl hk⟩, Iff.rfl, rfl,
      iff_of_false Bool.false_ne_true fun hf => hf.1 rfl, Or.inl rfl⟩
  exact h.phraseInv

/-- Wherever a passphrase given in the run opens a master key of the wallet, it
gives the master key that the wallet was encrypted with. -/
def RightPassphrases (env : WalletEnv Key) : World Key → Uint256 → List WalletEvent → Prop
  | _, _, [] => True
  | w, key, e :: es => (∀ p ∈ e.op.passphrase, OpensOnly env.crypter key w.wallet.mapMasterKeys p) ∧
      RightPassphrases env (walletStep env w e) (eventKey w e key) es

theorem walletRun_phraseInv {es : List WalletEvent} (h : PhraseInv env key w)
    (hu : ∀ e ∈ es, e.op.writesPhrase = true → Unfailing e.outcomes)
    (hright : RightPassphrases env w key es) : ∃ key', PhraseInv env key' (walletRun env w es) := by
  induction es generalizing w key with
  | nil => exact ⟨key, h⟩
  | cons e es ih =>
    exact ih (walletStep_phraseInv h (hu e List.mem_cons_self) hright.1)
      (fun e' he' => hu e' (List.mem_cons_of_mem _ he')) hright.2

/-- In a run where no call into the database reports a failure while the wallet
is being set up, restored or encrypted, and where no passphrase opens a master
key to something else, an unlocked wallet gives back the phrase that was last
persisted, and a wallet that has just been encrypted has not got it stored as it
is. -/
theorem walletRun_mnemonic_faithful {keypoolSize : Nat} {outcomes : Nat → Outcome}
    {es : List WalletEvent} (hu : ∀ e ∈ es, e.op.writesPhrase = true → Unfailing e.outcomes)
    (hright : RightPassphrases env (World.new Key keypoolSize outcomes) Uint256.zero es)
    (hw : w = walletRun env (World.new Key keypoolSize outcomes) es) (hl : w.wallet.loaded = true) :
    (w.wallet.isLocked = false → getWalletMnemonic env w.wallet =
      if w.db.mnemonicPhrase = [] then none else some w.db.mnemonicPhrase) ∧
    ∀ passphrase outcomes' w', Unfailing outcomes' →
      (encryptWallet env passphrase).run { w with outcomes := outcomes' } = (.ok true, w') →
      w'.db.mnemonicPhrase ≠ [] → w'.db.mnemonic ≠ w'.db.mnemonicPhrase := by
  obtain ⟨key, -, hopen⟩ := walletRun_phraseInv (phraseInv_new Uint256.zero keypoolSize outcomes) hu hright
  rw [← hw] at hopen
  have ho := hopen hl
  refine ⟨ho.getWalletMnemonic, fun passphrase outcomes' w' hu' hrun hp => ?_⟩
  have henc := encryptWallet_phraseOpen (w := { w with outcomes := outcomes' }) ho hu' passphrase
  simp only [wp, hrun] at henc
  obtain ⟨h', hmap⟩ := henc
  exact h'.toPhraseStored.stored_ne (fun hk => hmap trivial (h'.isCrypted.mpr hk)) hp
end

def outcomesFailingAt (n : Nat) : Nat → Outcome :=
  Function.update (fun _ => .good Uint256.zero) n { Outcome.good Uint256.zero with db := .fails }

/-- When the last commit of encrypting a blank wallet fails, the unlocked wallet
gives a phrase, and none has been persisted. -/
theorem mnemonic_of_failed_setup :
    let w := walletRun sampleWalletEnv (World.new UInt8 1 fun _ => .good Uint256.zero)
      [⟨.encrypt [1], outcomesFailingAt 27⟩]
    w.wallet.loaded = true ∧ w.wallet.isLocked = false ∧ w.db.mnemonicPhrase = [] ∧
      getWalletMnemonic sampleWalletEnv w.wallet = some (sampleWalletEnv.encodeMnemonic Uint256.zero) := by
  decide +kernel

def sampleSealedEvents : List WalletEvent :=
  [⟨.encrypt [1], fun _ => .good Uint256.zero⟩, ⟨.unlock [2], fun _ => .good Uint256.zero⟩,
    ⟨.unlock [1], fun _ => .good Uint256.zero⟩]

theorem mnemonic_faithful_encrypted_sample :
    let w := walletRun sampleWalletEnv (World.new UInt8 1 fun _ => .good Uint256.zero) sampleSealedEvents
    w.wallet.isLocked = false ∧ w.db.mnemonicPhrase = sampleWalletEnv.encodeMnemonic Uint256.zero ∧
      getWalletMnemonic sampleWalletEnv w.wallet =
        if w.db.mnemonicPhrase = [] then none else some w.db.mnemonicPhrase := by
  have hu : ∀ e ∈ sampleSealedEvents, e.op.writesPhrase = true → Unfailing e.outcomes := by
    simp [sampleSealedEvents, WalletOp.writesPhrase, Unfailing, Outcome.good]
  have hright : RightPassphrases sampleWalletEnv (World.new UInt8 1 fun _ => .good Uint256.zero) Uint256.zero
      sampleSealedEvents := by
    simp only [sampleSealedEvents, RightPassphrases, OpensOnly]
    decide +kernel
  have hlocked : (walletRun sampleWalletEnv (World.new UInt8 1 fun _ => .good Uint256.zero)
      sampleSealedEvents).wallet.isLocked = false := by decide +kernel
  exact ⟨hlocked, by decide +kernel, (walletRun_mnemonic_faithful hu hright rfl (by decide +kernel)).1 hlocked⟩

end Byze
