import Byze.Wallet.Frame

/-! What a wallet stores and holds of its recovery phrase, and the operations
that leave it alone. -/

namespace Byze
open StateWp

structure PhraseState where
  stored : Bytes
  phrase : Bytes
  storedMasterKeys : List (Nat × CMasterKey)
  storage : Bytes
  isEncrypted : Bool
  mapMasterKeys : List (Nat × CMasterKey)
  vMasterKey : Bytes

def World.phraseState {Key : Type} (w : World Key) : PhraseState where
  stored := w.db.mnemonic
  phrase := w.db.mnemonicPhrase
  storedMasterKeys := w.db.masterKeys
  storage := w.wallet.mnemonicStorage
  isEncrypted := w.wallet.mnemonicIsEncrypted
  mapMasterKeys := w.wallet.mapMasterKeys
  vMasterKey := w.wallet.vMasterKey

abbrev KeepsPhrase {Key : Type} : World Key → World Key → Prop := Leaves World.phraseState

instance {Key : Type} : HidesOutcomes (@World.phraseState Key) := ⟨fun _ => rfl⟩

def World.secrets {Key : Type} (w : World Key) : KeyState Key × PhraseState := (w.keyState, w.phraseState)

abbrev KeepsSecrets {Key : Type} : World Key → World Key → Prop := Leaves World.secrets

instance {Key : Type} : HidesOutcomes (@World.secrets Key) := ⟨fun _ => rfl⟩

section
variable {Key : Type} {env : WalletEnv Key} {w w' : World Key}

theorem Leaves.keepsSecrets (h : Keeps w w') : KeepsSecrets w w' :=
  ⟨congrArg (fun c : WalletCore Key => World.secrets ⟨c.db, c.wallet, w.outcomes, c.signedLeaves⟩) h.same, h.later⟩

theorem Leaves.phraseOf (h : KeepsSecrets w w') : KeepsPhrase w w' :=
  ⟨congrArg Prod.snd h.same, h.later⟩

theorem Leaves.phraseOfRest (h : KeepsRest w w') : KeepsPhrase w w' :=
  ⟨congrArg (fun r => World.phraseState ⟨r.1, r.2, w.outcomes, []⟩) h.same, h.later⟩

variable {α : Type}

variable {c : WalletM Key α}

theorem Along.keepsSecrets (h : Along Keeps c) : Along KeepsSecrets c :=
  h.mono fun _ _ => Leaves.keepsSecrets

theorem Along.phraseOf (h : Along KeepsSecrets c) : Along KeepsPhrase c :=
  h.mono fun _ _ => Leaves.phraseOf

theorem Along.keepsPhrase (h : Along Keeps c) : Along KeepsPhrase c :=
  Along.phraseOf (Along.keepsSecrets h)

theorem Along.keepsPhrase_of_rest (h : Along KeepsRest c) : Along KeepsPhrase c :=
  h.mono fun _ _ => Leaves.phraseOfRest

theorem updateSpkm_keepsSecrets (id : Uint256) (f : DescriptorScriptPubKeyMan → DescriptorScriptPubKeyMan) :
    Along KeepsSecrets (updateSpkm id f : WalletM Key PUnit) :=
  modifyWallet_leaves fun _ => rfl

theorem writeDescriptor_keepsSecrets (desc : WalletDescriptor) :
    Along KeepsSecrets (writeDescriptor desc : WalletM Key Bool) :=
  dbWrite_leaves fun _ => rfl

theorem advanceNextIndex_keepsSecrets (id : Uint256) (n : Nat) :
    Along KeepsSecrets (advanceNextIndex id n : WalletM Key PUnit) := by
  induction n with
  | zero => exact .pure _
  | succ n ih =>
    refine Along.get.bind fun w => ?_
    cases w.wallet.findSpkm id with
    | none => exact .pure _
    | some spkm =>
      exact .ite (.throw _) ((updateSpkm_keepsSecrets _ _).bind fun _ => ih)

theorem writeCryptedDescriptorKey_keepsSecrets (id : Uint256) (key : CKey) (pubkey secret : Bytes) :
    Along KeepsSecrets (writeCryptedDescriptorKey id key pubkey secret : WalletM Key Bool) :=
  .bind (dbWrite_leaves fun _ => rfl) fun _ =>
    .ite (.bind (dbWrite_leaves fun _ => rfl) fun _ => .pure _) (.pure _)

theorem addDescriptorKeyWithDB_keepsSecrets (id : Uint256) (key : CKey) :
    Along KeepsSecrets (addDescriptorKeyWithDB env id key) := by
  refine Along.get.bind fun w => .ite (.pure _) (.ite (.ite (.pure _) ?_) ?_)
  · cases env.crypter.encryptSecret w.wallet.vMasterKey key.val (hash256 env.hashes (env.getPubKey key)) with
    | none => exact .pure _
    | some secret =>
      exact (updateSpkm_keepsSecrets _ _).bind fun _ => writeCryptedDescriptorKey_keepsSecrets _ _ _ _
  · exact (updateSpkm_keepsSecrets _ _).bind fun _ => dbWrite_leaves fun _ => rfl

theorem addDescriptorKeys_keepsSecrets (id : Uint256) (keys : List CKey) :
    Along KeepsSecrets (addDescriptorKeys env id keys) := by
  induction keys with
  | nil => exact .pure _
  | cons key keys ih =>
    exact (addDescriptorKeyWithDB_keepsSecrets id key).bind fun _ => .ite ih (.throw _)

theorem addActiveScriptPubKeyMan_keepsSecrets (id : Uint256) (internal : Bool) :
    Along KeepsSecrets (addActiveScriptPubKeyMan id internal : WalletM Key PUnit) := by
  refine .bind (dbWrite_leaves fun w => ?_) fun _ =>
    .ite (modifyWallet_leaves fun w => ?_) (.throw _)
  all_goals cases internal <;> rfl

theorem deactivateScriptPubKeyMan_keepsSecrets (id : Uint256) (internal : Bool) :
    Along KeepsSecrets (deactivateScriptPubKeyMan id internal : WalletM Key PUnit) := by
  refine Along.get.bind fun w => .ite ?_ (.pure _)
  refine .bind (dbWrite_leaves fun w => ?_) fun _ =>
    .ite (modifyWallet_leaves fun w => ?_) (.throw _)
  all_goals cases internal <;> rfl

theorem setupDescriptorGeneration_keepsSecrets (master : CExtKey) (desc : WalletDescriptor) :
    Along KeepsSecrets (setupDescriptorGeneration env master desc) := by
  refine (addDescriptorKeyWithDB_keepsSecrets _ _).bind fun _ => .ite ?_ (.throw _)
  refine (writeDescriptor_keepsSecrets _).bind fun _ => .ite ?_ (.throw _)
  refine (Along.keepsSecrets (topUpWithDB_keeps _ _)).bind fun _ => ?_
  exact Along.keepsSecrets (setWalletFlags_keeps _)

theorem setupDescriptorScriptPubKeyMan_keepsSecrets (master : CExtKey) (internal : Bool) :
    Along KeepsSecrets (setupDescriptorScriptPubKeyMan env master internal) := by
  refine Along.get.bind fun w => .ite (.throw _) ?_
  refine .bind (modifyWallet_leaves fun _ => rfl) fun _ => ?_
  refine .bind (onAbort_leaves (fun _ => rfl) (setupDescriptorGeneration_keepsSecrets _ _)) fun _ => ?_
  exact addActiveScriptPubKeyMan_keepsSecrets _ _

theorem addWalletDescriptor_keepsSecrets (desc : WalletDescriptor) (keys : List CKey) :
    Along KeepsSecrets (addWalletDescriptor env desc keys) := by
  have hfinish : ∀ id, Along KeepsSecrets (addWalletDescriptor.finish env keys id) := by
    intro id
    refine (addDescriptorKeys_keepsSecrets _ _).bind fun _ => ?_
    refine (Along.keepsSecrets (topUp_keeps _ _)).bind fun _ => .ite ?_ (.pure _)
    refine Along.get.bind fun w => ?_
    cases w.wallet.findSpkm id with
    | none => exact .pure _
    | some spkm =>
      exact (writeDescriptor_keepsSecrets _).bind fun _ => .ite (.pure _) (.throw _)
  refine Along.get.bind fun w => ?_
  dsimp only
  cases w.wallet.findSpkm desc.descriptor.id with
  | none => exact .bind (modifyWallet_leaves fun _ => rfl) fun _ => hfinish _
  | some spkm =>
    exact .ite ((updateSpkm_keepsSecrets _ _).bind fun _ => hfinish _) (.pure _)

theorem processDescriptorImport_keepsSecrets (desc : WalletDescriptor) (keys : List CKey)
    (active internal : Bool) :
    Along KeepsSecrets (processDescriptorImport env desc keys active internal) := by
  refine .ite (.pure _) (.ite (.pure _) (.ite (.pure _) ?_))
  refine (addWalletDescriptor_keepsSecrets desc keys).bind fun r => ?_
  cases r with
  | error e => exact .pure _
  | ok _ =>
    cases desc.descriptor.outputType with
    | none => exact .pure _
    | some type =>
      refine .ite ?_ (.ite (.pure _) (.pure _))
      refine .ite ?_ ?_
      · exact (addActiveScriptPubKeyMan_keepsSecrets _ _).bind fun _ => .pure _
      · exact (deactivateScriptPubKeyMan_keepsSecrets _ _).bind fun _ => .pure _

theorem importDescriptorUnlocked_keepsSecrets (desc : WalletDescriptor) (keys : List CKey)
    (active internal : Bool) :
    Along KeepsSecrets (importDescriptorUnlocked env desc keys active internal) := by
  refine Along.get.bind fun w => .ite (.throw _) ?_
  exact (processDescriptorImport_keepsSecrets desc keys active internal).bind fun _ => .pure _

theorem encryptSpkms_keepsSecrets (masterKey : Bytes) (spkms : List DescriptorScriptPubKeyMan) :
    Along KeepsSecrets (encryptSpkms env masterKey spkms) :=
  encryptSpkms_walk (Walk.along _) updateSpkm_keepsSecrets writeCryptedDescriptorKey_keepsSecrets masterKey spkms

theorem checkDecryptionKeys_keepsSecrets (masterKey : Bytes) (spkms : List DescriptorScriptPubKeyMan) :
    Along KeepsSecrets (checkDecryptionKeys env masterKey spkms) :=
  checkDecryptionKeys_walk (Walk.along _) .throw updateSpkm_keepsSecrets masterKey spkms

/-- What a relation has to follow for handing out addresses to follow it. -/
structure AddressSteps (env : WalletEnv Key) (R : World Key → World Key → Prop) : Prop where
  secrets : ∀ w w', KeepsSecrets w w' → R w w'
  ensureState : ∀ id index, Along R (ensureQuantumStateForSpkmIndex env id index)
  ensureReceive : Along R (ensureQuantumKeysForReceive env)

section
variable {R : World Key → World Key → Prop} [Std.Refl R] [IsTrans (World Key) R]

section
variable (hR : AddressSteps env R)
include hR

omit [Std.Refl R] [IsTrans (World Key) R] in
theorem AddressSteps.along {α : Type} {c : WalletM Key α} (h : Along KeepsSecrets c) :
    Along R c :=
  h.mono hR.secrets

omit [Std.Refl R] [IsTrans (World Key) R] in
theorem AddressSteps.keeps {α : Type} {c : WalletM Key α} (h : Along Keeps c) :
    Along R c :=
  hR.along (Along.keepsSecrets h)

theorem takeDestination_along (id : Uint256) : Along R (takeDestination env id) := by
  refine Along.get.bind fun w => ?_
  cases w.wallet.findSpkm id with
  | none => exact .pure _
  | some spkm =>
    dsimp only
    cases spkm.walletDescriptor.descriptor.expandFromCache spkm.walletDescriptor.cache
      spkm.walletDescriptor.nextIndex with
    | none => exact .pure _
    | some scripts =>
      refine (hR.keeps (getQuantumTaprootForSpkmIndex_keeps _ _)).bind fun program => ?_
      cases program with
      | none => exact .pure _
      | some program =>
        refine (hR.along (updateSpkm_keepsSecrets _ _)).bind fun _ => ?_
        refine (hR.along (writeDescriptor_keepsSecrets _)).bind fun _ => ?_
        refine (hR.ensureState _ _).bind
          fun _ => .ite (.pure _) (.pure _)

theorem getNewDestinationOf_along (spkm : DescriptorScriptPubKeyMan) :
    Along R (getNewDestinationOf env spkm) := by
  refine .ite (.pure _) ?_
  cases spkm.walletDescriptor.descriptor.outputType with
  | none => exact .throw _
  | some type =>
    refine .ite (.throw _) ?_
    refine (hR.keeps (topUp_keeps _ _)).bind fun _ => Along.get.bind fun w => ?_
    cases w.wallet.findSpkm spkm.getID with
    | none => exact .pure _
    | some spkm =>
      refine .ite ?_ (takeDestination_along hR _)
      exact (hR.keeps (topUp_keeps _ _)).bind fun _ =>
        .ite (takeDestination_along hR _) (.pure _)

theorem getNewDestination_along (internal : Bool) : Along R (getNewDestination env internal) := by
  refine Along.get.bind fun w => ?_
  cases w.wallet.getScriptPubKeyMan internal with
  | none => exact .pure _
  | some spkm => exact getNewDestinationOf_along hR spkm

theorem getNewAddress_along (internal : Bool) : Along R (getNewAddress env internal) := by
  refine Along.get.bind fun w => .ite (.throw _) (.ite (.throw _) ?_)
  refine hR.ensureReceive.bind fun _ => ?_
  exact .ite (getNewDestination_along hR internal) (.throw _)

theorem markUnusedAddresses_along (script : CScript) (id : Uint256) :
    Along R (markUnusedAddresses env script id) := by
  refine Along.get.bind fun w => ?_
  cases w.wallet.findSpkm id with
  | none => exact .pure _
  | some spkm =>
    dsimp only
    cases spkm.mapScriptPubKeys.lookup script with
    | none => exact .pure _
    | some index =>
      refine (hR.along (advanceNextIndex_keepsSecrets _ _)).bind fun _ => ?_
      refine .bind (.ite (.pure _) ?_) fun _ => ?_
      · exact hR.ensureState _ _
      · exact (hR.keeps (topUp_keeps _ _)).bind fun _ => .pure _

theorem markScriptUsed_along (script : CScript) : Along R (markScriptUsed env script) := by
  refine Along.get.bind fun w => ?_
  induction w.wallet.getScriptPubKeyMans script with
  | nil => exact .pure _
  | cons id ids ih => exact (markUnusedAddresses_along hR script id).bind fun _ => ih
end
end

theorem keepsPhrase_addressSteps : AddressSteps env KeepsPhrase where
  secrets _ _ h := h.phraseOf
  ensureState id index := Along.keepsPhrase_of_rest (ensureQuantumStateForSpkmIndex_along keepsRest_recordSteps id index)
  ensureReceive := Along.keepsPhrase_of_rest ensureQuantumKeysForReceive_keepsRest

theorem World.phraseState_restore {s : World Key} (h : w'.phraseState = s.phraseState) :
    World.phraseState { w' with db := s.db } = s.phraseState := by
  simp only [World.phraseState, PhraseState.mk.injEq] at h ⊢
  simp [h]

theorem runWithinTxn_keepsPhrase {func : WalletM Key Bool} (hfunc : Along KeepsPhrase func) :
    Along KeepsPhrase (runWithinTxn func) :=
  runWithinTxn_along (fun _ _ h => ⟨World.phraseState_restore h.same, h.later⟩)
    (dbWrite_leaves fun _ => rfl) hfunc

theorem persistSigned_keepsPhrase (ref : QuantumKeyRef) (mgr : QuantumSafeManager Key) :
    Along KeepsPhrase (persistSigned env ref mgr) := by
  refine Along.get.bind fun w => ?_
  cases mgr.serializeDualKeys with
  | none => exact .pure _
  | some plain =>
    dsimp only
    cases sealPayload env w.wallet plain with
    | none => exact .pure _
    | some payload =>
      cases programFromManager env mgr with
      | none => exact .pure _
      | some program =>
        refine (Along.keepsPhrase_of_rest (persistQuantumKeyPacked_keepsRest _ _ _ _ _)).bind
          fun _ => .ite ?_ (.pure _)
        refine (Along.keepsPhrase eraseQuantumPending_keeps).bind fun _ => .ite ?_ (.pure _)
        exact .bind (modifyWallet_leaves fun _ => rfl) fun _ => .pure _

theorem signReserved_keepsPhrase (ref : QuantumKeyRef) (inMemory : Bool)
    (mgr : QuantumSafeManager Key) (reservedIndex : Nat) (sighash : Uint256) :
    Along KeepsPhrase (signReserved env ref inMemory mgr reservedIndex sighash) := by
  refine nextOutcome_leaves.bind fun o => ?_
  refine .bind (modifyWallet_leaves fun w => ?_) fun _ => ?_
  · split <;> rfl
  refine nextOutcome_leaves.bind fun o' => .ite (.pure _) ?_
  refine nextOutcome_leaves.bind fun o'' => ?_
  cases QuantumSafeManager.getXmssIndex env.lib (mgr.sign env.lib sighash .xmss o.sign).2.1 o''.indexRead with
  | none => exact .pure _
  | some postSignIndex =>
    refine .ite (.pure _) ?_
    refine (runWithinTxn_keepsPhrase (persistSigned_keepsPhrase _ _)).bind fun _ =>
      .ite ?_ (.pure _)
    exact .bind (.modify fun w => ⟨rfl, Later.refl w⟩) fun _ => .pure _

theorem signWithManager_keepsPhrase (ref : QuantumKeyRef) (inMemory : Bool)
    (mgr : QuantumSafeManager Key) (program sighash : Uint256) :
    Along KeepsPhrase (signWithManager env ref inMemory mgr program sighash) := by
  refine (Along.keepsPhrase (recoverPendingXmssDb_keeps mgr)).bind fun _ =>
    .ite (.ite (.pure _) ?_) (.pure _)
  refine nextOutcome_leaves.bind fun o => ?_
  cases mgr.getXmssIndex env.lib o.indexRead with
  | none => exact .pure _
  | some reservedIndex =>
    refine .bind (runWithinTxn_keepsPhrase (dbWrite_leaves fun _ => rfl)) fun _ =>
      .ite ?_ (.pure _)
    refine (signReserved_keepsPhrase _ _ _ _ _).bind fun signature => ?_
    cases signature with
    | some signature => exact .pure _
    | none => exact (Along.keepsPhrase eraseQuantumPending_keeps).bind fun _ => .pure _

theorem signQuantumTransactionSighash_keepsPhrase (sighash : Uint256) (outputProgram : Bytes) :
    Along KeepsPhrase (signQuantumTransactionSighash env sighash outputProgram) := by
  refine Along.get.bind fun w => ?_
  cases witnessProgramOf outputProgram with
  | none => exact .pure _
  | some program =>
    dsimp only
    cases findQuantumKeyForProgram w program with
    | none => exact .pure _
    | some ref =>
      dsimp only
      cases if ref = ⟨false, 0⟩ ∧ w.wallet.quantumProgramBytes = some program then
          w.wallet.quantumManager else none with
      | some mgr => exact signWithManager_keepsPhrase _ _ _ _ _
      | none =>
        refine (Along.keepsPhrase (loadQuantumManagerForKey_keeps ref)).bind fun mgr => ?_
        cases mgr with
        | none => exact .pure _
        | some mgr => exact signWithManager_keepsPhrase _ _ _ _ _

theorem setupDescriptorScriptPubKeyMan_unlocked (master : CExtKey) (internal : Bool) :
    wp (setupDescriptorScriptPubKeyMan env master internal) (fun _ _ => w.wallet.isLocked = false)
      (fun _ _ => True) w := by
  rw [setupDescriptorScriptPubKeyMan, wp_bind, wp_get]
  refine wp_ite (fun _ => trivial) fun hl => ?_
  exact wp_trivial (fun _ _ => by simpa using hl) fun _ _ => trivial

/-- Setting up the descriptors of an unlocked wallet leaves its secrets alone but for the new keys. -/
theorem wp_setupDescriptorScriptPubKeyMansFrom {master : CExtKey} {Q : PUnit → World Key → Prop}
    {E : Abort → World Key → Prop} (habort : ∀ e t, KeepsSecrets w t → E e t)
    (hkeys : ∀ t, KeepsSecrets w t → w.wallet.isLocked = false →
      wp (persistQuantumKeyMaterialFromHdMaster env master false)
        (fun ok u => ∀ v, KeepsSecrets u v → (ok = true → Q ⟨⟩ v) ∧ ∀ e, E e v) E t) :
    wp (setupDescriptorScriptPubKeyMansFrom env master) Q E w := by
  rw [setupDescriptorScriptPubKeyMansFrom, wp_bind, modifyWallet, wp_modify, wp_bind, wp_onAbort, wp_bind]
  refine wp_mono (wp_and (setupDescriptorScriptPubKeyMan_unlocked master false)
    (setupDescriptorScriptPubKeyMan_keepsSecrets master false _)) ?_ fun e _ h => habort e _ ⟨h.2.same, h.2.later⟩
  rintro _ t ⟨hl, ht⟩
  refine (setupDescriptorScriptPubKeyMan_keepsSecrets master true).wp_of (fun _ t' ht' => ?_) fun e t' ht' =>
    habort e _ ⟨ht'.same.trans ht.same, ht.later.trans ht'.later⟩
  rw [wp_bind, modifyWallet, wp_modify, wp_bind]
  refine wp.imp (hkeys _ ⟨ht'.same.trans ht.same, ht.later.trans ht'.later⟩ hl) ?_
  intro ok u hu
  refine wp_ite (fun hok => ?_) fun _ => (hu u (refl_of KeepsSecrets u)).2 _
  rw [wp_bind, wp_get]
  cases u.wallet.getScriptPubKeyMan true with
  | none => exact (hu u (refl_of KeepsSecrets u)).2 _
  | some spkm =>
    refine Along.wp_of (R := KeepsSecrets) (.bind (dbWrite_leaves fun _ => rfl) fun _ => .ite ?_ (.throw _))
      (fun _ v hv => (hu v hv).1 hok) fun e v hv => (hu v hv).2 e
    refine .bind (modifyWallet_leaves fun _ => rfl) fun _ => ?_
    exact (Along.keepsSecrets (refreshActiveLookahead_keeps false)).bind fun _ =>
      Along.keepsSecrets (refreshActiveLookahead_keeps true)

section
variable {R : World Key → World Key → Prop} [Std.Refl R] [IsTrans (World Key) R] {masterKeys : List (Nat × CMasterKey)}

theorem unlockWithKey_along {key : Bytes} (hphrase : ∀ w w', KeepsPhrase w w' → R w w')
    (hset : Along R (modifyWallet fun wallet : CWallet Key => { wallet with vMasterKey := key }))
    (hforget : Along R (modifyWallet fun wallet : CWallet Key =>
      { wallet with vMasterKey := [], quantumManager := none })) : Along R (unlockWithKey env key) := by
  have hrest : ∀ {α : Type} {c : WalletM Key α}, Along KeepsRest c → Along R c := fun h =>
    (Along.keepsPhrase_of_rest h).mono hphrase
  refine Along.get.bind fun w => ?_
  refine .bind ((Along.phraseOf (checkDecryptionKeys_keepsSecrets _ _)).mono hphrase) fun _ =>
    .ite (hset.bind fun _ => ?_) (.pure _)
  refine .bind (hrest readStoredQuantumState_keepsRest) fun _ => .ite (.pure _) ?_
  refine .bind (hrest tryLoadQuantumManagerAfterUnlock_keepsRest) fun _ => .ite ?_ (hforget.bind fun _ => .pure _)
  exact .bind (hrest maybeUpgradeQuantumStateToHdOrigin_keepsRest) fun _ => .pure _

theorem unlockWithMasterKeys_along {passphrase : Bytes} (hkey : ∀ entry ∈ masterKeys, ∀ plain,
      decryptMasterKey env.crypter passphrase entry.2 = some plain → Along R (unlockWithKey env plain)) :
    Along R (unlockWithMasterKeys env passphrase masterKeys) := by
  induction masterKeys with
  | nil => exact .pure _
  | cons entry rest ih =>
    have hrest := ih fun e he => hkey e (List.mem_cons_of_mem _ he)
    simp only [unlockWithMasterKeys]
    cases hd : decryptMasterKey env.crypter passphrase entry.2 with
    | none => exact hrest
    | some plain => exact (hkey entry List.mem_cons_self plain hd).bind fun _ => .ite (.pure _) hrest

theorem changeWalletPassphrase_go_along {old new : Bytes} {wasLocked : Bool} (hnext : Along R nextOutcome)
    (hlock : Along R lock) (hkey : ∀ entry ∈ masterKeys, ∀ plain,
      decryptMasterKey env.crypter old entry.2 = some plain → Along R (unlockWithKey env plain) ∧
        ∀ iterations masterKey, encryptMasterKey env.crypter new plain entry.2.vchSalt iterations = some masterKey →
          Along R (modifyWallet fun wallet =>
            { wallet with mapMasterKeys := mapInsert entry.1 masterKey wallet.mapMasterKeys }) ∧
          Along R (writeMasterKey entry.1 masterKey)) :
    Along R (changeWalletPassphrase.go env old new wasLocked masterKeys) := by
  induction masterKeys with
  | nil => exact .pure _
  | cons entry rest ih =>
    have hrest := ih fun e he => hkey e (List.mem_cons_of_mem _ he)
    simp only [changeWalletPassphrase.go]
    cases hd : decryptMasterKey env.crypter old entry.2 with
    | none => exact .pure _
    | some plain =>
      obtain ⟨hunlock, hnew⟩ := hkey entry List.mem_cons_self plain hd
      refine hunlock.bind fun _ => .ite (hnext.bind fun o => ?_) hrest
      cases he : encryptMasterKey env.crypter new plain entry.2.vchSalt o.deriveIterations with
      | none => exact .pure _
      | some masterKey =>
        obtain ⟨hremember, hwrite⟩ := hnew _ masterKey he
        refine hremember.bind fun _ => hwrite.bind fun _ => .ite ?_ (.pure _)
        exact hlock.bind fun _ => .pure _
end
end

end Byze
