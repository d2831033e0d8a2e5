import Byze.Wallet.KeyRefine

/-! Locking, unlocking, encrypting, loading and signing take the quantum keys of
a wallet along the steps of a key state, and so does every run. -/

namespace Byze
open StateWp KeyState

def WalletOp.signs : WalletOp → Uint256 → Prop
  | .sign _ outputProgram, program => witnessProgramOf outputProgram = some program
  | _, _ => False

section
variable {Key : Type} {env : WalletEnv Key} {master : Uint256} {signs : Uint256 → Prop} {w w' : World Key}

theorem lock_moves : Along (Moves env master signs) (lock : WalletM Key Bool) := by
  refine Along.get.bind fun _ => .ite (.pure _) (.bind ?_ fun _ => .pure _)
  intro w
  exact KeyStep.moves (.keys _ _ _ _ (Or.inr rfl) (Or.inr (Or.inl rfl))) rfl

def World.HoldsState (w : World Key) : Prop :=
  w.wallet.quantumProgramBytes = none ∨
    ∃ packed r, w.keyState.read .state = some packed ∧ unpackQuantumDbRecord packed = some r ∧
      w.wallet.quantumProgramBytes = some r.program ∧ w.wallet.quantumSecretStorage = r.payload ∧
      w.wallet.quantumSecretIsEncrypted = r.encrypted ∧ w.wallet.quantumKeyOrigin = r.origin ∧
      w.wallet.quantumBlobFormat = r.format

theorem openQuantumPayload_of_plain {r : QuantumRecord} {masterKey : Bytes} {mgr : QuantumSafeManager Key}
    (h : (if r.encrypted then none else QuantumSafeManager.deserializeDualKeys r.payload) = some mgr) :
    openQuantumPayload env masterKey r = some mgr := by
  cases he : r.encrypted with
  | true => simp [he] at h
  | false => simpa [openQuantumPayload, he] using h

theorem applyQuantumStateFromPackedBlob_moves {packed : Bytes}
    (hread : w.keyState.read .state = some packed) :
    wp (applyQuantumStateFromPackedBlob packed)
      (fun err t => Moves env master signs w t ∧ (err = .loadOk → t.HoldsState)) (fun _ _ => False) w := by
  simp only [applyQuantumStateFromPackedBlob]
  cases hr : unpackQuantumDbRecord packed with
  | none => exact ⟨refl_of (Moves env master signs) w, by simp⟩
  | some r =>
    have hmove : Moves env master signs w (w.modifyWallet fun wallet =>
        { wallet with
          quantumBlobFormat := r.format
          quantumKeyOrigin := r.origin
          quantumProgramBytes := some r.program
          quantumSecretStorage := r.payload
          quantumSecretIsEncrypted := r.encrypted
          quantumManager :=
            if r.encrypted then none else QuantumSafeManager.deserializeDualKeys r.payload }) :=
      KeyStep.moves (.apply _ packed r _ hread hr fun _ h => openQuantumPayload_of_plain h) rfl
    refine wp_ite (fun _ => ⟨hmove, fun _ => ?_⟩) fun _ => ⟨hmove, fun _ => ?_⟩
    all_goals exact Or.inr ⟨packed, r, hread, hr, rfl, rfl, rfl, rfl, rfl⟩

theorem readStoredQuantumState_moves (env : WalletEnv Key) (master : Uint256) (signs : Uint256 → Prop)
    (w : World Key) : wp readStoredQuantumState
      (fun err t => Moves env master signs w t ∧ (err = .loadOk → t.HoldsState)) (fun _ _ => False) w := by
  rw [readStoredQuantumState, wp_bind, wp_get]
  cases hread : w.db.readQuantum .state with
  | none => exact ⟨KeyStep.moves (.clear _ hread) rfl, fun _ => Or.inl rfl⟩
  | some packed => exact applyQuantumStateFromPackedBlob_moves hread

theorem tryLoadQuantumManagerAfterUnlock_moves (master : Uint256) (signs : Uint256 → Prop) (hw : w.HoldsState) :
    wp (tryLoadQuantumManagerAfterUnlock env) (fun _ => Moves env master signs w) (fun _ _ => False) w := by
  refine wp_ite (fun _ => KeyStep.moves (.keys _ _ _ _ (Or.inr rfl) (Or.inl rfl)) rfl) fun hkey => ?_
  rcases hw with hnone | ⟨packed, r, hread, hr, hprogram, hstorage, henc, horigin, hformat⟩
  · exact absurd hkey (by simp [World.modifyWallet, hnone])
  refine KeyStep.moves ?_ rfl
  have happly : KeyStep env master w.keyState _ :=
    .apply _ packed r (openQuantumPayload env w.wallet.vMasterKey r) hread hr fun _ h => h
  have hopen : (if !r.encrypted then some r.payload
      else if w.wallet.vMasterKey.isEmpty then none
      else env.crypter.decryptSecret w.wallet.vMasterKey r.payload (quantumWalletIv env)).bind
        QuantumSafeManager.deserializeDualKeys = openQuantumPayload env w.wallet.vMasterKey r := by
    cases henc' : r.encrypted with
    | false => simp [openQuantumPayload, henc']
    | true =>
      simp only [openQuantumPayload, henc', if_true, List.isEmpty_iff]
      by_cases hkey : w.wallet.vMasterKey = []
      · simp [hkey]
      · simp [hkey]
  convert happly using 1
  simp only [World.keyState, World.modifyWallet, applied, mk.injEq, true_and, and_true,
    hstorage, henc, hprogram, horigin, hformat]
  exact ⟨rfl, hopen⟩

theorem reloadQuantumState_moves : Along (Moves env master signs) (reloadQuantumState env) := by
  intro w
  rw [reloadQuantumState, wp_bind]
  refine wp_mono (readStoredQuantumState_moves env master signs w) ?_ fun _ _ h => h.elim
  rintro err t ⟨hmove, hstate⟩
  refine wp_ite (fun _ => hmove) fun herr => ?_
  rw [wp_bind]
  refine wp_mono (tryLoadQuantumManagerAfterUnlock_moves master signs (hstate (not_not.mp herr))) ?_
    fun _ _ h => h.elim
  intro ok t' ht'
  have hmove' := trans_of (Moves env master signs) hmove ht'
  refine wp_ite (fun _ => ?_) fun _ => ?_
  · have hup : Along (Moves env master signs) (do
        let _ ← maybeUpgradeQuantumStateToHdOrigin env
        pure true) := maybeUpgradeQuantumStateToHdOrigin_moves.bind fun _ => .pure _
    exact wp_mono (hup t') (fun _ _ => trans_of (Moves env master signs) hmove')
      fun _ _ => trans_of (Moves env master signs) hmove'
  · refine trans_of (Moves env master signs) hmove' ?_
    exact KeyStep.moves (.keys _ _ [] none (Or.inr rfl) (Or.inr (Or.inl rfl))) rfl

theorem unlockWithKey_moves : Along (Moves env master signs) (unlockWithKey env master.val) := by
  refine Along.get.bind fun w => (Along.moves (Along.keysOf (checkDecryptionKeys_keepsSecrets _ _))).bind fun _ =>
    .ite (.bind ?_ fun _ => reloadQuantumState_moves) (.pure _)
  intro w
  exact KeyStep.moves (.keys _ _ _ _ (Or.inl rfl) (Or.inr (Or.inr rfl))) rfl

theorem unlock_moves {passphrase : Bytes}
    (hopens : OpensOnly env.crypter master w.wallet.mapMasterKeys passphrase) :
    wp (unlock env passphrase) (fun _ => Moves env master signs w) (fun _ => Moves env master signs w) w := by
  rw [unlock, wp_bind, wp_get]
  refine unlockWithMasterKeys_along (fun entry hentry plain hplain => ?_) w
  rw [hopens entry hentry plain hplain]
  exact unlockWithKey_moves

theorem writeMasterKey_keepsKeys (nID : Nat) (masterKey : CMasterKey) :
    Along KeepsKeys (writeMasterKey nID masterKey : WalletM Key Bool) :=
  dbWrite_keepsKeys fun _ => rfl

theorem changeWalletPassphrase_moves {old : Bytes} (new : Bytes)
    (hopens : OpensOnly env.crypter master w.wallet.mapMasterKeys old) :
    wp (changeWalletPassphrase env old new) (fun _ => Moves env master signs w)
      (fun _ => Moves env master signs w) w := by
  rw [changeWalletPassphrase, wp_bind, wp_get]
  refine (lock_moves.bind fun _ => ?_) w
  refine changeWalletPassphrase_go_along (Along.moves nextOutcome_keepsKeys) lock_moves
    fun entry hentry plain hplain => ?_
  rw [hopens entry hentry plain hplain]
  refine ⟨unlockWithKey_moves, fun _ masterKey _ => ⟨fun w => ?_, Along.moves (writeMasterKey_keepsKeys _ _)⟩⟩
  exact KeyStep.moves (.keys _ _ _ _ (Or.inl rfl) (Or.inl rfl)) rfl

theorem encryptWalletMnemonicForWallet_keepsKeys (masterKey : Bytes) :
    Along KeepsKeys (encryptWalletMnemonicForWallet env masterKey) :=
  encryptWalletMnemonicForWallet_walk (Walk.along _) (fun _ => dbWrite_keepsKeys fun _ => rfl)
    (fun _ => modifyWallet_keepsKeys fun _ => rfl) masterKey

def Resealed (env : WalletEnv Key) (master : Uint256) (c c' : KeyState Key) : Prop :=
  c' = c ∨ KeyStep env master c c' ∧ ∃ packed, c' = c.write [.state] packed

instance : Std.Refl (Resealed env master) := ⟨fun _ => Or.inl rfl⟩

theorem Resealed.moves (h : Resealed env master w.keyState w'.keyState) : Moves env master signs w w' := by
  rcases h with h | ⟨hstep, packed, hwrite⟩
  · exact KeepsKeys.moves h
  · exact hstep.moves (congrArg loaded hwrite)

theorem Resealed.restore {c c' : KeyState Key} (h : Resealed env master c c') :
    { c' with record := c.record } = c := by
  rcases h with rfl | ⟨-, packed, rfl⟩
  · rfl
  · rfl

theorem encryptQuantumKeysForWallet_resealed (master : Uint256) :
    Along (OnKeys (Resealed env master)) (encryptQuantumKeysForWallet env master.val) := by
  intro w
  rw [encryptQuantumKeysForWallet, wp_bind, wp_get]
  cases hmgr : w.wallet.quantumManager with
  | none => exact Or.inl rfl
  | some mgr =>
    cases hprogram : w.wallet.quantumProgramBytes with
    | none => exact Or.inl rfl
    | some program =>
      dsimp only
      cases hplain : mgr.serializeDualKeys with
      | none => exact Or.inl rfl
      | some plain =>
        dsimp only
        cases hcipher : env.crypter.encryptSecret master.val plain (quantumWalletIv env) with
        | none => exact Or.inl rfl
        | some cipher =>
          have hstep : KeyStep env master w.keyState _ :=
            .encrypt _ mgr program plain cipher _ hmgr hprogram hplain hcipher rfl
          rw [wp_bind]
          refine wp_mono (wp_writeQuantum (wrote_nil _ w) .state) ?_ fun _ t ht => Or.inl ?_
          · rintro (_ | _) t ht
            · exact Or.inl (ht.2.trans (write_nil _ _))
            · have hrecord := ht.2
              have hmod : (t.modifyWallet fun wallet => { wallet with
                  quantumSecretStorage := cipher, quantumSecretIsEncrypted := true }).keyState =
                    t.keyState := rfl
              refine Or.inr ⟨?_, _, hmod.trans hrecord⟩
              have hall := hrecord ▸ hstep
              exact hall
          · exact ht.2.trans (write_nil _ _)

theorem encryptSecrets_resealed (master : Uint256) (nID : Nat) (masterKey : CMasterKey) :
    Along (OnKeys (Resealed env master)) (encryptSecrets env master.val nID masterKey) := by
  have hafter : ∀ ok : Bool, Along KeepsKeys (if ok = true then do
      if ← encryptWalletMnemonicForWallet env master.val then
        if ← dbWrite fun db => db then pure ⟨⟩ else throw .crash
      else throw .crash
    else throw .crash : WalletM Key PUnit) := fun _ =>
    .ite ((encryptWalletMnemonicForWallet_keepsKeys _).bind fun _ => Along.ite
      (.bind (dbWrite_keepsKeys fun _ => rfl) fun _ => .ite (.pure _) (.throw _))
      (.throw _)) (.throw _)
  refine Along.keepsKeys_bind (writeMasterKey_keepsKeys _ _) fun _ => ?_
  refine Along.keepsKeys_bind Along.get fun w => ?_
  refine Along.keepsKeys_bind (Along.keysOf (encryptSpkms_keepsSecrets _ _)) fun _ => ?_
  exact Along.bind_keepsKeys (encryptQuantumKeysForWallet_resealed _) hafter

theorem setupIfBlank_moves : Along (Moves env master signs) (setupIfBlank env) :=
  Along.get.bind fun _ => .ite setupDescriptorScriptPubKeyMans_moves (.pure _)

theorem encryptSecrets_keepsMasterKeys (plainMasterKey : Bytes) (nID : Nat) (masterKey : CMasterKey) :
    Along (fun w w' : World Key => w'.wallet.mapMasterKeys = w.wallet.mapMasterKeys)
      (encryptSecrets env plainMasterKey nID masterKey) := by
  have hR : IsTrans (World Key) fun w w' => w'.wallet.mapMasterKeys = w.wallet.mapMasterKeys :=
    ⟨fun _ _ _ h h' => h'.trans h⟩
  have hdb : ∀ f, Along (fun w w' : World Key => w'.wallet.mapMasterKeys = w.wallet.mapMasterKeys) (dbWrite f) :=
    fun f w => wp_dbWrite rfl rfl rfl
  exact encryptSecrets_walk (Walk.along _) (hdb _)
    (fun _ => (encryptSpkms_keepsSecrets _ _).mono fun _ _ h =>
      congrArg (fun s => s.2.mapMasterKeys) h.same)
    ((encryptQuantumKeysForWallet_keepsPhrase _).mono fun _ _ h => congrArg PhraseState.mapMasterKeys h.same)
    (encryptWalletMnemonicForWallet_walk (Walk.along _) (fun _ => hdb _) (fun _ _ => rfl) _) (hdb _)

theorem finishEncryption_moves {passphrase : Bytes}
    (hopens : OpensOnly env.crypter master w.wallet.mapMasterKeys passphrase) :
    wp (finishEncryption env passphrase)
      (fun _ => Moves env master signs w) (fun _ => Moves env master signs w) w := by
  have hlock : wp lock (fun _ t => Moves env master signs w t ∧ t.wallet.mapMasterKeys = w.wallet.mapMasterKeys)
      (fun _ _ => False) w :=
    wp_ite (fun _ => ⟨refl_of _ w, rfl⟩) fun _ => ⟨KeyStep.moves (.keys _ _ _ _ (Or.inr rfl)
      (Or.inr (Or.inl rfl))) rfl, rfl⟩
  have hend : Along (Moves env master signs) (do
      setupIfBlank env
      let _ ← lock
      pure true : WalletM Key Bool) := setupIfBlank_moves.bind fun _ => lock_moves.bind fun _ => .pure _
  rw [finishEncryption, wp_bind]
  refine wp_mono hlock ?_ fun _ _ h => h.elim
  rintro _ t ⟨ht, hmap⟩
  rw [wp_bind]
  refine wp_mono (unlock_moves (hmap ▸ hopens)) (fun _ t' ht' => ?_) fun _ _ ht' => trans_of _ ht ht'
  have hmove := trans_of (Moves env master signs) ht ht'
  exact wp_mono (hend t') (fun _ _ => trans_of _ hmove) fun _ _ => trans_of _ hmove

theorem encryptWallet_moves (passphrase : Bytes)
    (hdrawn : w.wallet.isCrypted = false → (w.outcomes 0).random = master) :
    wp (encryptWallet env passphrase) (fun _ => Moves env master signs w)
      (fun _ => Moves env master signs w) w := by
  have hrefl : Moves env master signs w w := refl_of _ w
  refine wp_encryptWallet (fun _ => hrefl) fun masterKey hmap _ hopens => ?_
  obtain rfl := hdrawn (by simp [CWallet.isCrypted, hmap])
  have hmove₁ : Moves env (w.outcomes 0).random signs w (w.remembering masterKey) :=
    KeyStep.moves (.keys _ _ _ _ (Or.inl rfl) (Or.inl rfl)) rfl
  refine wp_dbWrite ?_ hmove₁ hmove₁
  refine wp_mono (wp_and (encryptSecrets_resealed _ _ _ _) (encryptSecrets_keepsMasterKeys _ _ _ _)) ?_ ?_
  · rintro _ t ⟨ht, hsame⟩
    have hmove := trans_of (Moves env (w.outcomes 0).random signs) hmove₁ (Resealed.moves ht)
    exact wp_mono (finishEncryption_moves (hsame ▸ hopens)) (fun _ _ => trans_of _ hmove) fun _ _ => trans_of _ hmove
  · rintro _ t ⟨ht, -⟩
    have hkeeps : KeepsKeys (w.remembering masterKey) { t with db := w.db } := Resealed.restore ht
    exact trans_of (Moves env (w.outcomes 0).random signs) hmove₁ hkeeps.moves

theorem keyState_closeWallet (w : World Key) :
    (closeWallet w).keyState = w.keyState.forgotten false false := rfl

theorem closeWallet_steps {c : KeyState Key} (h : KeySteps env master signs c w.keyState) :
    KeySteps env master signs c (closeWallet w).keyState :=
  h.trans (KeyStep.close _).steps

def JustRead (c : KeyState Key) (w : World Key) : Prop :=
  w.keyState = c.forgotten true w.wallet.isCrypted

/-- What reading the records leaves: the keys of a loaded wallet, or of one that is to be closed. -/
def Loads (env : WalletEnv Key) (master : Uint256) (signs : Uint256 → Prop) (c : KeyState Key) (err : DBErrors)
    (w : World Key) : Prop :=
  (err = .loadOk → KeySteps env master signs c w.keyState ∧ w.wallet.loaded = true) ∧
    KeySteps env master signs c (closeWallet w).keyState

theorem Along.loads {c : KeyState Key} {p : WalletM Key DBErrors} (hp : Along (Moves env master signs) p)
    (hw : KeySteps env master signs c w.keyState) (hl : w.wallet.loaded = true) :
    wp p (Loads env master signs c) (fun _ t => KeySteps env master signs c t.keyState) w := by
  refine wp_mono (hp w) (fun _ t h => ?_) fun _ _ h => hw.trans (h hl).2
  have hsteps := hw.trans (h hl).2
  exact ⟨fun _ => ⟨hsteps, (h hl).1⟩, closeWallet_steps hsteps⟩

theorem loadQuantumRecordsFromDatabase_steps {c : KeyState Key} (hw : JustRead c w) :
    wp (loadQuantumRecordsFromDatabase env) (Loads env master signs c)
      (fun _ t => KeySteps env master signs c t.keyState) w := by
  rw [loadQuantumRecordsFromDatabase, wp_bind, modifyWallet, wp_modify, wp_bind, wp_get]
  have hv : JustRead c (w.modifyWallet fun wallet =>
      { wallet with
        quantumProgramBytes := none
        quantumSecretStorage := []
        quantumSecretIsEncrypted := false
        quantumManager := none
        quantumBlobFormat := quantumPackV2
        quantumKeyOrigin := 0 }) := by
    have hsame := congrArg (fun d : KeyState Key => ({ d with
      manager := none, program := none, origin := 0, format := quantumPackV2 } : KeyState Key)) hw
    exact hsame
  generalize World.modifyWallet _ w = v at hv ⊢
  have hrecord : v.db.quantum = c.record := congrArg record hv
  have hl : v.wallet.loaded = true := congrArg loaded hv
  have hread' : c.read .state = v.db.readQuantum .state := by
    rw [KeyState.read, ← hrecord]
    rfl
  cases hread : v.db.readQuantum .state with
  | none =>
    refine Along.loads ((loadQuantumChangeIndexStates_along moves_recordSteps).bind fun _ => .pure _) ?_ hl
    rw [show v.keyState = _ from hv]
    exact (KeyStep.load c _ (hread'.trans hread)).steps
  | some packed =>
    simp only [applyQuantumStateFromPackedBlob]
    cases hr : unpackQuantumDbRecord packed with
    | none =>
      refine ⟨by simp, ?_⟩
      rw [keyState_closeWallet, show v.keyState = _ from hv]
      exact (KeyStep.close c).steps
    | some r =>
      have hstep : KeyStep env master c ((c.forgotten true v.wallet.isCrypted).applied r
          (if r.encrypted then none else QuantumSafeManager.deserializeDualKeys r.payload)) :=
        .loadState c _ packed r _ (hread'.trans hread) hr fun _ h => openQuantumPayload_of_plain h
      rw [← show v.keyState = _ from hv] at hstep
      rw [wp_bind, wp_bind, modifyWallet, wp_modify, wp_bind, wp_get]
      generalize hv' : World.modifyWallet _ v = v'
      have hsteps : KeySteps env master signs c v'.keyState := hv' ▸ hstep.steps
      have hclose : ∀ err, err ≠ .loadOk → Loads env master signs c err v' :=
        fun _ herr => ⟨fun h => absurd h herr, closeWallet_steps hsteps⟩
      refine wp_ite (fun _ => wp_ite (hclose _) fun _ => ?_) fun _ => wp_ite (hclose _) fun _ => ?_
      all_goals
        refine Along.loads (upgradeIfPlain_moves.bind fun _ => ?_) hsteps (hv' ▸ hl)
        exact (repairQuantumReceiveIndexStates_along moves_recordSteps).bind fun _ =>
          (loadQuantumChangeIndexStates_along moves_recordSteps).bind fun _ => .pure _

theorem loadWallet_steps (master : Uint256) (signs : Uint256 → Prop) (w : World Key) :
    wp (loadWallet env) (fun _ t => KeySteps env master signs w.keyState t.keyState)
      (fun _ t => KeySteps env master signs w.keyState t.keyState) w := by
  rw [loadWallet, wp_bind, wp_get]
  cases hread : (readWallet w.db w.wallet.keypoolSize : Option (CWallet Key)) with
  | none => exact closeWallet_steps .refl
  | some wallet =>
    have hw : JustRead w.keyState { w with wallet := wallet } := by
      obtain ⟨spkms, -, hread⟩ := Option.bind_eq_some_iff.mp hread
      obtain ⟨-, hwallet⟩ := Option.ite_none_right_eq_some.mp hread
      obtain rfl := Option.some.inj hwallet
      rfl
    rw [wp_bind, modifyWallet, wp_modify, wp_bind]
    refine wp.imp (loadQuantumRecordsFromDatabase_steps hw) ?_
    rintro err t ⟨hok, hclose⟩
    refine wp_ite (fun _ => hclose) fun herr => ?_
    obtain ⟨hsteps, hl⟩ := hok (not_not.mp herr)
    rw [wp_bind, wp_onAbort]
    have htop : Along (Moves env master signs) (topUpKeyPool env) := Along.moves_of_keeps topUpKeyPool_keeps
    refine htop.wp_of (fun _ t' h => hsteps.trans (h hl).2) fun _ t' h => ?_
    exact closeWallet_steps (hsteps.trans (h hl).2)

def Committed (env : WalletEnv Key) (ref : QuantumKeyRef) (mgr : QuantumSafeManager Key)
    (c c' : KeyState Key) : Prop :=
  ∃ packed, c.pack env c.origin mgr = some packed ∧ c' = (c.write ref.dbKeys packed).keepSigned env ref mgr

def Undone (env : WalletEnv Key) (ref : QuantumKeyRef) (mgr : QuantumSafeManager Key)
    (c c' : KeyState Key) : Prop :=
  { c' with record := c.record } = c ∨ { c' with record := c.record } = c.keepSigned env ref mgr

variable {ref : QuantumKeyRef} {outputProgram : Bytes} {mgr : QuantumSafeManager Key}

theorem undone_write (c : KeyState Key) (keys : List QuantumDbKey) (packed : Bytes) :
    Undone env ref mgr c (c.write keys packed) :=
  Or.inl rfl

variable {c c' : KeyState Key} {sighash : Uint256} {inMemory : Bool}

theorem Committed.undone (h : Committed env ref mgr c c') :
    Undone env ref mgr c c' := by
  obtain ⟨packed, -, rfl⟩ := h
  right
  rw [write]
  by_cases href : ref = ⟨false, 0⟩ <;> simp [keepSigned, href]

theorem persistSigned_keys (ref : QuantumKeyRef) (mgr : QuantumSafeManager Key) :
    wp (persistSigned env ref mgr) (fun ok t => (ok = true → Committed env ref mgr w.keyState t.keyState) ∧
        Undone env ref mgr w.keyState t.keyState)
      (fun _ t => Undone env ref mgr w.keyState t.keyState) w := by
  have hrefl : Undone env ref mgr w.keyState w.keyState := Or.inl rfl
  rw [persistSigned, wp_bind, wp_get]
  cases hplain : mgr.serializeDualKeys with
  | none => exact ⟨by simp, hrefl⟩
  | some plain =>
    dsimp only
    cases hpayload : sealPayload env w.wallet plain with
    | none => exact ⟨by simp, hrefl⟩
    | some payload =>
      cases hprogram : programFromManager env mgr with
      | none => exact ⟨by simp, hrefl⟩
      | some program =>
        have hpack := World.keyState_pack hplain hpayload hprogram w.wallet.quantumKeyOrigin
        rw [wp_bind]
        refine wp_mono (persistQuantumKeyPacked_wrote ref _ _ _ _) ?_ ?_
        · rintro ok t ⟨keys, hkeys, hall, -, ht⟩
          refine wp_ite (fun hok => ?_) fun hok => ?_
          swap
          · exact ⟨by simp, ht ▸ undone_write _ _ _⟩
          rw [hall hok] at ht
          rw [wp_bind]
          refine (Along.keepsKeys eraseQuantumPending_keeps).wp_of ?_ ?_
          · intro _ t' (ht' : t'.keyState = t.keyState)
            rw [ht] at ht'
            refine wp_ite (fun h0 => ?_) fun h0 => ?_
            · have href : ref = ⟨false, 0⟩ := by
                obtain ⟨change, index⟩ := ref
                simpa using h0
              have hdone : Committed env ref mgr w.keyState (t'.modifyWallet fun wallet =>
                  { wallet with
                    quantumProgramBytes := some program
                    quantumSecretStorage := payload
                    quantumSecretIsEncrypted := w.wallet.encrypting
                    quantumManager := cloneQuantumManager mgr }).keyState := by
                refine ⟨_, hpack, ?_⟩
                rw [keepSigned, if_pos href, ← ht', hprogram]
                rfl
              exact ⟨fun _ => hdone, hdone.undone⟩
            · have href : ref ≠ ⟨false, 0⟩ := by
                rintro rfl
                exact h0 rfl
              have hdone : Committed env ref mgr w.keyState t'.keyState := by
                refine ⟨_, hpack, ?_⟩
                simp [keepSigned, href, ht']
              exact ⟨fun _ => hdone, hdone.undone⟩
          · intro _ t' (ht' : t'.keyState = t.keyState)
            rw [ht', ht]
            exact undone_write _ _ _
        · rintro _ t ⟨keys, -, -, ht⟩
          rw [ht]
          exact undone_write _ _ _

theorem commitSigned_keys (ref : QuantumKeyRef) (mgr : QuantumSafeManager Key) :
    wp (runWithinTxn (persistSigned env ref mgr))
      (fun ok t => if ok = true then Committed env ref mgr w.keyState t.keyState
        else t.keyState = w.keyState ∨ t.keyState = w.keyState.keepSigned env ref mgr)
      (fun _ t => t.keyState = w.keyState ∨ t.keyState = w.keyState.keepSigned env ref mgr) w := by
  have hid : Along KeepsKeys (dbWrite id : WalletM Key Bool) := dbWrite_keepsKeys fun _ => rfl
  rw [runWithinTxn, wp_bind]
  refine hid.wp_of ?_ fun _ t ht => Or.inl ht
  intro ok t (ht : t.keyState = w.keyState)
  refine wp_ite (fun _ => ?_) fun _ => Or.inl ht
  have hback : ∀ t' : World Key, Undone env ref mgr w.keyState t'.keyState →
      World.keyState { t' with db := t.db } = w.keyState ∨
        World.keyState { t' with db := t.db } = w.keyState.keepSigned env ref mgr := by
    intro t' h
    have hrecord : t.db.quantum = w.keyState.record := congrArg record ht
    simpa only [Undone, World.keyState, hrecord] using h
  rw [wp_bind, wp_get, wp_restoringDb, wp_bind]
  refine wp_mono (persistSigned_keys ref mgr) ?_ fun _ t' h => hback t' (ht ▸ h)
  rintro ok' t' ⟨hdone, hundone⟩
  rw [ht] at hdone hundone
  refine wp_ite (fun hok' => ?_) fun _ => hback t' hundone
  refine hid.wp_of ?_ fun _ t'' (h : t''.keyState = t'.keyState) => hback t'' (h ▸ hundone)
  intro ok'' t'' (h : t''.keyState = t'.keyState)
  cases ok'' with
  | true => exact h ▸ hdone hok'
  | false => exact hback t'' (h ▸ hundone)

theorem SignStep.loaded {program : Uint256} (h : SignStep env program c c') : c'.loaded = c.loaded := by
  have hkeep : ∀ (d : KeyState Key) (ref : QuantumKeyRef) (mgr : QuantumSafeManager Key),
      (d.keepSigned env ref mgr).loaded = d.loaded := by
    intro d ref mgr
    simp only [keepSigned]
    split <;> rfl
  cases h with
  | advance => rfl
  | unsaved => exact hkeep _ _ _
  | signed => exact hkeep _ _ _

/-- Signing is one step of the key of the program, or none. -/
def SignsOnce (env : WalletEnv Key) (outputProgram : Bytes) (c c' : KeyState Key) : Prop :=
  c' = c ∨ ∃ program, witnessProgramOf outputProgram = some program ∧ SignStep env program c c'

def KeyState.advanced (c : KeyState Key) (inMemory : Bool) (mgr : QuantumSafeManager Key) : KeyState Key :=
  if inMemory then { c with manager := some mgr } else c

theorem KeyState.keepSigned_advanced {c : KeyState Key} (href : inMemory = true → ref = ⟨false, 0⟩)
    (mgr mgr' : QuantumSafeManager Key) :
    (c.advanced inMemory mgr').keepSigned env ref mgr = c.keepSigned env ref mgr := by
  cases inMemory with
  | false => rfl
  | true => simp [keepSigned, advanced, href rfl]

theorem KeyState.keepSigned_leaves (c : KeyState Key) (ref : QuantumKeyRef)
    (mgr : QuantumSafeManager Key) (leaves : List (Key × Nat)) :
    ({ c with leaves := leaves } : KeyState Key).keepSigned env ref mgr =
      { c.keepSigned env ref mgr with leaves := leaves } := by
  by_cases href : ref = ⟨false, 0⟩ <;> simp [keepSigned, href]

theorem KeyState.leaves_keepSigned (c : KeyState Key) (ref : QuantumKeyRef)
    (mgr : QuantumSafeManager Key) : (c.keepSigned env ref mgr).leaves = c.leaves := by
  rw [keepSigned]
  split <;> rfl

theorem Committed.of_advanced {mgr mgr' : QuantumSafeManager Key} (href : inMemory = true → ref = ⟨false, 0⟩)
    (h : Committed env ref mgr (c.advanced inMemory mgr') c') : Committed env ref mgr c c' := by
  obtain ⟨packed, hpack, rfl⟩ := h
  refine ⟨packed, ?_, ?_⟩
  · cases inMemory <;> exact hpack
  · have hwrite : (c.advanced inMemory mgr').write ref.dbKeys packed =
        (c.write ref.dbKeys packed).advanced inMemory mgr' := by
      cases inMemory <;> rfl
    rw [hwrite, keepSigned_advanced href]

/-- How signing with a key can end: refused before any signing call, given up
after the XMSS call, or with a signature. `n` and `n'` are the places of the two
signing calls among the outcomes. -/
inductive SigningEnds (env : WalletEnv Key) (c : KeyState Key) (ref : QuantumKeyRef) (inMemory : Bool)
    (mgr : QuantumSafeManager Key) (sighash : Uint256) (outcomes : Nat → Outcome) :
    Option QuantumSignature → KeyState Key → Prop
  | refused : SigningEnds env c ref inMemory mgr sighash outcomes none c
  | advanced (n : Nat) : SigningEnds env c ref inMemory mgr sighash outcomes none
      (c.advanced inMemory (mgr.sign env.lib sighash .xmss (outcomes n).sign).2.1)
  | unsaved (n : Nat)
      (hlength : (mgr.sign env.lib sighash .xmss (outcomes n).sign).1.length = xmssSignatureSize) :
      SigningEnds env c ref inMemory mgr sighash outcomes none
      (c.keepSigned env ref (mgr.sign env.lib sighash .xmss (outcomes n).sign).2.1)
  | signed (n n' : Nat) (packed : Bytes)
      (hlength : (mgr.sign env.lib sighash .xmss (outcomes n).sign).1.length = xmssSignatureSize)
      (hpack : c.pack env c.origin (mgr.sign env.lib sighash .xmss (outcomes n).sign).2.1 = some packed) :
      SigningEnds env c ref inMemory mgr sighash outcomes
        (some ⟨(mgr.sign env.lib sighash .xmss (outcomes n).sign).1,
          ((mgr.sign env.lib sighash .xmss (outcomes n).sign).2.1.sign env.lib sighash .sphincsPlus
            (outcomes n').sign).1, mgr.getDualPublicKeyBundle⟩)
        ({ c.write ref.dbKeys packed with
          leaves := (mgr.sign env.lib sighash .xmss (outcomes n).sign).2.2.toList ++ c.leaves }.keepSigned
            env ref (mgr.sign env.lib sighash .xmss (outcomes n).sign).2.1)

section
variable {program : Uint256} {r : Option QuantumSignature} {outcomes : Nat → Outcome}

theorem SigningEnds.later (hl : Later w w')
    (h : SigningEnds env c ref inMemory mgr sighash w'.outcomes r c') :
    SigningEnds env c ref inMemory mgr sighash w.outcomes r c' := by
  obtain ⟨k, hk⟩ := hl
  rw [hk] at h
  cases h with
  | refused => exact .refused
  | advanced n => exact .advanced (n + k)
  | unsaved n hlength => exact .unsaved (n + k) hlength
  | signed n n' packed hlength hpack => exact .signed (n + k) (n' + k) packed hlength hpack

theorem commitSigned_ends {c : KeyState Key} (href : inMemory = true → ref = ⟨false, 0⟩) (n n' : Nat) {signed : _}
    (hsigned : mgr.sign env.lib sighash .xmss (outcomes n).sign = signed)
    (hlength : signed.1.length = xmssSignatureSize)
    (hw : w.keyState = c.advanced inMemory signed.2.1) :
    wp (do
      if ← runWithinTxn (persistSigned env ref signed.2.1) then
        modify fun w => { w with signedLeaves :=
          signed.2.2.toList ++ w.signedLeaves }
        pure (some ⟨signed.1,
          (signed.2.1.sign env.lib sighash .sphincsPlus
            (outcomes n').sign).1, mgr.getDualPublicKeyBundle⟩)
      else pure none : WalletM Key (Option QuantumSignature))
      (fun r t => SigningEnds env c ref inMemory mgr sighash outcomes r t.keyState)
      (fun _ t => SigningEnds env c ref inMemory mgr sighash outcomes none t.keyState) w := by
  have hrest : ∀ t : World Key, t.keyState = w.keyState ∨ t.keyState = w.keyState.keepSigned env ref signed.2.1 →
      SigningEnds env c ref inMemory mgr sighash outcomes none t.keyState := by
    subst hsigned
    rintro t (ht | ht)
    · rw [ht, hw]
      exact .advanced n
    · rw [ht, hw, keepSigned_advanced href]
      exact .unsaved n hlength
  subst hsigned
  rw [wp_bind]
  refine wp_mono (commitSigned_keys ref _) ?_ fun _ t ht => hrest t ht
  intro ok t ht
  refine wp_ite (fun hok => ?_) fun hok => ?_
  · rw [if_pos hok, hw] at ht
    obtain ⟨packed, hpack, ht⟩ := ht.of_advanced href
    have hleaves : t.signedLeaves = c.leaves := by
      have h := congrArg leaves ht
      rwa [leaves_keepSigned] at h
    have hend : SigningEnds env c ref inMemory mgr sighash outcomes _ _ :=
      .signed n n' packed hlength hpack
    rw [keepSigned_leaves, ← ht, ← hleaves] at hend
    exact hend
  · rw [if_neg hok] at ht
    exact hrest t ht

theorem signReserved_ends (href : inMemory = true → ref = ⟨false, 0⟩) (reservedIndex : Nat)
    (sighash : Uint256) :
    wp (signReserved env ref inMemory mgr reservedIndex sighash)
      (fun r t => SigningEnds env w.keyState ref inMemory mgr sighash w.outcomes r t.keyState)
      (fun _ t => SigningEnds env w.keyState ref inMemory mgr sighash w.outcomes none t.keyState) w := by
  have hkeys : ∀ outcomes : Nat → Outcome, World.keyState { World.modifyWallet (fun wallet =>
      if inMemory = true then { wallet with
        quantumManager := some (mgr.sign env.lib sighash .xmss (w.outcomes 0).sign).2.1 } else wallet) w with
          outcomes := outcomes } =
      w.keyState.advanced inMemory (mgr.sign env.lib sighash .xmss (w.outcomes 0).sign).2.1 := by
    intro outcomes
    cases inMemory <;> rfl
  have hadvance : SigningEnds env w.keyState ref inMemory mgr sighash w.outcomes none
      (w.keyState.advanced inMemory (mgr.sign env.lib sighash .xmss (w.outcomes 0).sign).2.1) :=
    .advanced 0
  have hnone : ∀ outcomes : Nat → Outcome,
      SigningEnds env w.keyState ref inMemory mgr sighash w.outcomes none _ := fun outcomes =>
    (hkeys outcomes).symm ▸ hadvance
  refine wp_ite (fun _ => hnone _) fun hlengths => ?_
  rw [wp_bind, wp_nextOutcome]
  cases QuantumSafeManager.getXmssIndex env.lib
      (mgr.sign env.lib sighash .xmss (w.outcomes 0).sign).2.1 _ with
  | none => exact hnone _
  | some postSignIndex =>
    refine wp_ite (fun _ => hnone _) fun _ => ?_
    exact commitSigned_ends href 0 1 rfl (not_not.mp (not_or.mp hlengths).1) (hkeys _)

/-- A leaf that was about to be signed with is read to be behind the key. -/
def PendingPasses (env : WalletEnv Key) (w : World Key) (mgr : QuantumSafeManager Key) : Prop :=
  ∀ pending, w.db.quantumPending = some pending → ∃ n current,
    mgr.getXmssIndex env.lib (w.outcomes n).indexRead = some current ∧ pending < current

theorem recoverPendingXmssDb_passes (mgr : QuantumSafeManager Key) :
    wp (recoverPendingXmssDb env mgr) (fun ok _ => ok = true → PendingPasses env w mgr)
      (fun _ _ => True) w := by
  rw [recoverPendingXmssDb, wp_bind, wp_get]
  cases hpending : w.db.quantumPending with
  | none =>
    intro _ pending h
    cases hpending.symm.trans h
  | some pendingIndex =>
    rw [wp_bind, wp_nextOutcome]
    cases hindex : mgr.getXmssIndex env.lib (w.outcomes 0).indexRead with
    | none => simp
    | some current =>
      refine wp_ite (fun _ => by simp) fun hlt => ?_
      simp only [setXmssIndex, Bool.not_false, Bool.and_true, decide_eq_true_eq, not_le] at hlt
      refine wp_trivial (fun _ _ _ pending h => ?_) fun _ _ => trivial
      obtain rfl := Option.some.inj (hpending.symm.trans h)
      exact ⟨0, current, hindex, hlt⟩

theorem signWithManager_ends (href : inMemory = true → ref = ⟨false, 0⟩) :
    wp (signWithManager env ref inMemory mgr program sighash) (fun r t => r = none ∧ t.keyState = w.keyState ∨
        programFromManager env mgr = some program ∧ PendingPasses env w mgr ∧
          SigningEnds env w.keyState ref inMemory mgr sighash w.outcomes r t.keyState)
      (fun _ t => t.keyState = w.keyState ∨ programFromManager env mgr = some program ∧
        SigningEnds env w.keyState ref inMemory mgr sighash w.outcomes none t.keyState) w := by
  rw [signWithManager, wp_bind]
  refine wp_mono (wp_and (recoverPendingXmssDb_keeps mgr w) (recoverPendingXmssDb_passes mgr)) ?_
    fun _ t h => Or.inl h.1.keepsKeys
  rintro ok t ⟨hkeep, hpass⟩
  have ht : t.keyState = w.keyState := hkeep.keepsKeys
  refine wp_ite (fun hok => ?_) fun _ => Or.inl ⟨rfl, ht⟩
  refine wp_ite (fun _ => Or.inl ⟨rfl, ht⟩) fun hown => ?_
  rw [not_not] at hown
  rw [wp_bind, wp_nextOutcome]
  cases mgr.getXmssIndex env.lib _ with
  | none => exact Or.inl ⟨rfl, ht⟩
  | some reservedIndex =>
    have htxn : Along Keeps (runWithinTxn (dbWrite fun db =>
        { db with quantumPending := some reservedIndex }) : WalletM Key Bool) :=
      runWithinTxn_keeps (dbWrite_leaves fun _ => rfl)
    rw [wp_bind]
    refine htxn.wp_of ?_ fun _ t' ht' => Or.inl (ht'.keepsKeys.trans ht)
    intro ok' t' ht'
    have hkeys : t'.keyState = w.keyState := ht'.keepsKeys.trans ht
    have hlater : Later w t' := hkeep.later.trans (Later.trans ⟨1, rfl⟩ ht'.later)
    refine wp_ite (fun _ => ?_) fun _ => Or.inl ⟨rfl, hkeys⟩
    rw [wp_bind]
    refine wp_mono (signReserved_ends href reservedIndex sighash) ?_ fun _ t'' h =>
      Or.inr ⟨hown, hkeys ▸ h.later hlater⟩
    intro signature t'' h
    have hend := hkeys ▸ h.later hlater
    cases signature with
    | some signature => exact Or.inr ⟨hown, hpass hok, hend⟩
    | none =>
      rw [wp_bind]
      have hkept : ∀ t : World Key, KeepsKeys t'' t →
          SigningEnds env w.keyState ref inMemory mgr sighash w.outcomes none t.keyState :=
        fun t ht => (show t.keyState = t''.keyState from ht) ▸ hend
      exact (Along.keepsKeys eraseQuantumPending_keeps).wp_of
        (fun _ t ht => Or.inr ⟨hown, hpass hok, hkept t ht⟩) fun _ t ht => Or.inr ⟨hown, hkept t ht⟩
end

structure SigningWith (env : WalletEnv Key) (w : World Key) (outputProgram : Bytes) (program : Uint256)
    (ref : QuantumKeyRef) (mgr : QuantumSafeManager Key) (inMemory : Bool) : Prop where
  output : witnessProgramOf outputProgram = some program
  found : findQuantumKeyForProgram w program = some ref
  key : signingKey env w ref program (w.outcomes 0).keygen = some mgr
  memory : keyInMemory w ref program = if inMemory then some mgr else none
  own : programFromManager env mgr = some program

theorem signQuantumTransactionSighash_ends : wp (signQuantumTransactionSighash env sighash outputProgram)
      (fun r t => r = none ∧ t.keyState = w.keyState ∨ ∃ program ref mgr inMemory,
        SigningWith env w outputProgram program ref mgr inMemory ∧ PendingPasses env w mgr ∧
          SigningEnds env w.keyState ref inMemory mgr sighash w.outcomes r t.keyState)
      (fun _ t => t.keyState = w.keyState ∨ ∃ program ref mgr inMemory,
        SigningWith env w outputProgram program ref mgr inMemory ∧
          SigningEnds env w.keyState ref inMemory mgr sighash w.outcomes none t.keyState) w := by
  refine wp_signQuantumTransactionSighash (fun _ _ => Or.inl ⟨rfl, rfl⟩) ?_
  intro program ref mgr inMemory k hprogram hfind hkey hmem _
  have hlater : Later w { w with outcomes := fun n => w.outcomes (n + k) } := ⟨k, rfl⟩
  have href : inMemory = true → ref = ⟨false, 0⟩ := by
    rintro rfl
    exact (Option.ite_none_right_eq_some.mp hmem).1.1
  refine wp_mono (signWithManager_ends href) ?_ ?_
  · rintro r t (h | ⟨hown, hpass, hend⟩)
    · exact Or.inl h
    · refine Or.inr ⟨program, ref, mgr, inMemory, ⟨hprogram, hfind, hkey, hmem, hown⟩, ?_, hend.later hlater⟩
      intro pending hpending
      obtain ⟨n, hcurrent⟩ := hpass pending hpending
      exact ⟨n + k, hcurrent⟩
  · rintro _ t (h | ⟨hown, hend⟩)
    · exact Or.inl h
    · exact Or.inr ⟨program, ref, mgr, inMemory, ⟨hprogram, hfind, hkey, hmem, hown⟩, hend.later hlater⟩

theorem SigningWith.source {program : Uint256}
    (h : SigningWith env w outputProgram program ref mgr inMemory) : w.keyState.Source env ref mgr := by
  have hmem := h.memory
  cases inMemory with
  | true =>
    obtain ⟨⟨href, hbytes⟩, hmgr⟩ := Option.ite_none_right_eq_some.mp hmem
    exact .memory program href hmgr hbytes h.own
  | false =>
    have hkey := h.key
    simp only [signingKey, hmem, storedOrDerivedKey] at hkey
    cases hread : ref.dbKeys.findSome? w.db.readQuantum with
    | some packed =>
      rw [hread] at hkey
      exact .loads (.record packed hread hkey)
    | none =>
      rw [hread] at hkey
      obtain ⟨root, -, hder⟩ := Option.bind_eq_some_iff.mp hkey
      exact .loads (.derived root _ hread hder)

theorem SigningWith.signsOnce {program : Uint256} {r : Option QuantumSignature}
    (h : SigningWith env w outputProgram program ref mgr inMemory) (hl : w.wallet.loaded = true)
    (hend : SigningEnds env w.keyState ref inMemory mgr sighash w.outcomes r c') :
    SignsOnce env outputProgram w.keyState c' := by
  have hstep : SignStep env program w.keyState c' → SignsOnce env outputProgram w.keyState c' :=
    fun hstep => Or.inr ⟨program, h.output, hstep⟩
  cases hend with
  | refused => exact Or.inl rfl
  | advanced n =>
    cases inMemory with
    | false => exact Or.inl rfl
    | true => exact hstep (.advance _ mgr sighash _ (Option.ite_none_right_eq_some.mp h.memory).2 h.own)
  | unsaved n => exact hstep (.unsaved _ ref mgr sighash _ hl h.source h.own)
  | signed n n' packed _ hpack => exact hstep (.signed _ ref mgr sighash _ packed hl h.source h.own hpack)

theorem signQuantumTransactionSighash_signsOnce (hl : w.wallet.loaded = true) :
    wp (signQuantumTransactionSighash env sighash outputProgram)
      (fun _ t => SignsOnce env outputProgram w.keyState t.keyState)
      (fun _ t => SignsOnce env outputProgram w.keyState t.keyState) w := by
  refine wp_mono signQuantumTransactionSighash_ends ?_ ?_
  · rintro r t (⟨-, h⟩ | ⟨program, ref, mgr, inMemory, hwith, -, hend⟩)
    · exact Or.inl h
    · exact hwith.signsOnce hl hend
  · rintro _ t (h | ⟨program, ref, mgr, inMemory, hwith, hend⟩)
    · exact Or.inl h
    · exact hwith.signsOnce hl hend

theorem signQuantumTransactionSighash_moves
    (hp : ∀ program, witnessProgramOf outputProgram = some program → signs program) :
    Along (Moves env master signs) (signQuantumTransactionSighash env sighash outputProgram) := by
  intro w
  by_cases hl : w.wallet.loaded = true
  swap
  · exact wp_trivial (fun _ _ h => absurd h hl) fun _ _ h => absurd h hl
  have hmoves : ∀ t : World Key, SignsOnce env outputProgram w.keyState t.keyState →
      Moves env master signs w t := by
    rintro t (ht | ⟨program, hprogram, hstep⟩)
    · exact KeepsKeys.moves ht
    · exact fun hl => ⟨hstep.loaded.trans hl, hstep.steps (hp program hprogram)⟩
  exact wp_mono (signQuantumTransactionSighash_signsOnce hl) (fun _ t => hmoves t) fun _ t => hmoves t

theorem runOp_moves {op : WalletOp} {master : Uint256} (hop : op.isReload = false)
    (hopens : ∀ p ∈ op.passphrase, OpensOnly env.crypter master w.wallet.mapMasterKeys p)
    (hdrawn : op.draws = true → w.wallet.isCrypted = false → (w.outcomes 0).random = master) :
    wp (runOp env op) (fun _ => Moves env master op.signs w) (fun _ => Moves env master op.signs w) w := by
  cases op with
  | newAddress internal => exact ((getNewAddress_along moves_addressSteps internal).bind fun _ => .pure _) w
  | newDestination internal => exact ((getNewDestination_along moves_addressSteps internal).bind fun _ => .pure _) w
  | keypoolRefill => exact Along.moves_of_keeps topUpKeyPool_keeps w
  | sign sighash outputProgram =>
    exact ((signQuantumTransactionSighash_moves fun _ h => h).bind fun _ => .pure _) w
  | lock => exact (lock_moves.bind fun _ => .pure _) w
  | unlock passphrase =>
    rw [runOp, wp_bind]
    exact unlock_moves (hopens _ rfl)
  | encrypt passphrase =>
    rw [runOp, wp_bind]
    exact encryptWallet_moves passphrase (hdrawn rfl)
  | changePassphrase old new =>
    rw [runOp, wp_bind]
    exact changeWalletPassphrase_moves new (hopens _ rfl)
  | setup => exact setupDescriptorScriptPubKeyMans_moves w
  | restore entropy => exact ((setupFromEntropy_moves entropy).bind fun _ => .pure _) w
  | payment script => exact markScriptUsed_along moves_addressSteps script w
  | importDescriptor desc keys active internal =>
    exact Along.moves (Along.keysOf (importDescriptorUnlocked_keepsSecrets desc keys active internal)) w
  | reload => cases hop

theorem walletStep_steps {e : WalletEvent} {key : Uint256}
    (hopens : ∀ p ∈ e.op.passphrase, OpensOnly env.crypter key w.wallet.mapMasterKeys p) :
    KeySteps env (eventKey w e key) e.op.signs w.keyState (walletStep env w e).keyState := by
  refine walletStep_of (P := fun t => KeySteps env (eventKey w e key) e.op.signs w.keyState t.keyState) env (fun _ => .refl)
    (fun hrun => ?_) fun _ ht => closeWallet_steps ht
  cases hreload : e.op.isReload with
  | false =>
    have hl : w.wallet.loaded = true := by simpa [hreload] using hrun
    refine wp_mono (runOp_moves hreload (fun p hp => ?_) fun hdraws hplain => ?_) (fun _ _ h => (h hl).2)
      fun _ _ h => (h hl).2
    · obtain ⟨op, outcomes⟩ := e
      cases op <;> cases hp
      all_goals exact hopens _ rfl
    · simp [eventKey, masterKeyAfter, hdraws, hl, drawnMasterKey, hplain]
  | true =>
    obtain ⟨op, outcomes⟩ := e
    cases op <;> cases hreload
    rw [runOp, wp_bind]
    exact wp_mono (loadWallet_steps _ WalletOp.reload.signs { w with outcomes := outcomes })
      (fun _ _ h => h) fun _ _ h => h

theorem walletStep_sign {e : WalletEvent} {program : Uint256} (he : e.op.signs program) :
    (walletStep env w e).signedLeaves = w.signedLeaves ∨
      ∃ c, SignStep env program w.keyState c ∧ (walletStep env w e).signedLeaves = c.leaves := by
  obtain ⟨op, outcomes⟩ := e
  cases op with
  | sign sighash outputProgram =>
    refine walletStep_of (P := fun t => t.signedLeaves = w.signedLeaves ∨
      ∃ c, SignStep env program w.keyState c ∧ t.signedLeaves = c.leaves) env (fun _ => Or.inl rfl)
      (fun hrun => ?_) fun _ ht => ht
    have hl : w.wallet.loaded = true := by simpa [WalletOp.isReload] using hrun
    have hleaves : ∀ t : World Key, SignsOnce env outputProgram w.keyState t.keyState →
        t.signedLeaves = w.signedLeaves ∨ ∃ c, SignStep env program w.keyState c ∧ t.signedLeaves = c.leaves := by
      rintro t (ht | ⟨program', hprogram', hstep⟩)
      · exact Or.inl (congrArg leaves ht)
      · obtain rfl := Option.some.inj (Eq.trans (Eq.symm he) hprogram')
        exact Or.inr ⟨t.keyState, hstep, rfl⟩
    rw [runOp, wp_bind]
    exact wp_mono (signQuantumTransactionSighash_signsOnce (w := { w with outcomes := outcomes }) hl)
      (fun _ t => hleaves t) fun _ t => hleaves t
  | _ => exact he.elim

end

end Byze
