import Byze.Wallet.KeyRun

/-! Which key records are encrypted once a wallet is. Of the keys in memory only
the record that old wallets have of receive index 0 is written anew, and the
records of the other indexes stay as they were stored. -/

namespace Byze
open StateWp

def SealedAt (record : Option Bytes) : Prop := ∃ raw, record = some raw ∧ SealedRecord raw

def WalletDb.AllSealed (db : WalletDb) : Prop := ∀ key raw, db.quantum key = some raw → SealedRecord raw

/-- The records of `must` have been written sealed, and those outside `may` are
as they were. -/
def Reseals (must may : QuantumDbKey → Prop) (q q' : QuantumDbKey → Option Bytes) : Prop :=
  ∀ key, may key ∧ SealedAt (q' key) ∨ ¬ must key ∧ q' key = q key

def World.isBlank {Key : Type} (w : World Key) : Bool :=
  w.wallet.walletFlags.blankWallet && w.wallet.spkManagers.isEmpty

def World.HoldsKey {Key : Type} (w : World Key) : Prop :=
  w.wallet.quantumManager.isSome = true ∧ w.wallet.quantumProgramBytes.isSome = true

instance {Key : Type} (w : World Key) : Decidable w.HoldsKey :=
  inferInstanceAs (Decidable (_ ∧ _))

def World.HeldState {Key : Type} (w : World Key) (key : QuantumDbKey) : Prop := w.HoldsKey ∧ key = .state

def World.FirstRecords {Key : Type} (w : World Key) (key : QuantumDbKey) : Prop :=
  w.db.readQuantum .state = none ∧ (key = .state ∨ key = .indexState 0)

/-- The records that encrypting the wallet writes. -/
def World.Rewrites {Key : Type} (w : World Key) (key : QuantumDbKey) : Prop :=
  if w.HoldsKey then key = .state
  else w.isBlank = true ∧ w.db.readQuantum .state = none ∧ (key = .state ∨ key = .indexState 0)

/-- Unlocking may write records too, when it can derive keys. -/
def World.MayUpgrade {Key : Type} (w : World Key) : Prop :=
  w.isBlank = false ∧ ∃ n, (w.outcomes n).keygen = ⟨.succeeds, .succeeds⟩

/-- Encrypting only leaves sealed records behind, whatever the passphrase and the
outcomes of the calls that it makes. -/
def EncryptsSealed {Key : Type} (env : WalletEnv Key) (w : World Key) : Prop :=
  ∀ passphrase outcomes w',
    (encryptWallet env passphrase).run { w with outcomes := outcomes } = (.ok true, w') → w'.db.AllSealed

def Encryptable {Key : Type} (env : WalletEnv Key) (w : World Key) : Prop :=
  ∃ passphrase outcomes w',
    (encryptWallet env passphrase).run { w with outcomes := outcomes } = (.ok true, w')

def World.Sealable {Key : Type} (w : World Key) : Prop :=
  ∀ key raw, w.db.quantum key = some raw → SealedRecord raw ∨ w.Rewrites key

structure Kept {Key : Type} (w w' : World Key) : Prop where
  blank : w'.isBlank = w.isBlank
  masterKeys : w'.wallet.mapMasterKeys = w.wallet.mapMasterKeys
  later : Later w w'

structure Steady {Key : Type} (w w' : World Key) : Prop extends Kept w w' where
  records : w'.db.quantum = w.db.quantum
  key : w'.wallet.vMasterKey = w.wallet.vMasterKey

section
variable {must may must' may' : QuantumDbKey → Prop} {q q' q'' : QuantumDbKey → Option Bytes}

theorem Reseals.trans (h : Reseals must may q q') (h' : Reseals must' may' q' q'') :
    Reseals (fun key => must key ∨ must' key) (fun key => may key ∨ may' key) q q'' := by
  intro key
  rcases h' key with ⟨hmay', hsealed⟩ | ⟨hmust', hsame⟩
  · exact Or.inl ⟨Or.inr hmay', hsealed⟩
  rcases h key with ⟨hmay, hsealed⟩ | ⟨hmust, hsame'⟩
  · exact Or.inl ⟨Or.inl hmay, hsame ▸ hsealed⟩
  · exact Or.inr ⟨not_or.mpr ⟨hmust, hmust'⟩, hsame.trans hsame'⟩

theorem Reseals.mono (h : Reseals must may q q') (hmust : ∀ key, must' key → must key)
    (hmay : ∀ key, may key → may' key) : Reseals must' may' q q' := by
  intro key
  rcases h key with ⟨hm, hsealed⟩ | ⟨hm, hsame⟩
  · exact Or.inl ⟨hmay key hm, hsealed⟩
  · exact Or.inr ⟨fun h => hm (hmust key h), hsame⟩

theorem Reseals.of_eq (h : q' = q) : Reseals (fun _ => False) may q q' :=
  fun _ => Or.inr ⟨not_false, congrFun h _⟩

theorem SealedRecord.ne_nil {raw : Bytes} (h : SealedRecord raw) : raw ≠ [] := by
  obtain ⟨r, hr, -⟩ := h
  rintro rfl
  cases hr
end

section
variable {Key : Type} {env : WalletEnv Key} {w w' : World Key}

instance : Std.Refl (@Kept Key) := ⟨fun w => ⟨rfl, rfl, Later.refl w⟩⟩

instance : IsTrans (World Key) Kept :=
  ⟨fun _ _ _ h h' => ⟨h'.blank.trans h.blank, h'.masterKeys.trans h.masterKeys, h.later.trans h'.later⟩⟩

instance : Std.Refl (@Steady Key) := ⟨fun w => ⟨refl_of Kept w, rfl, rfl⟩⟩

instance : IsTrans (World Key) Steady :=
  ⟨fun _ _ _ h h' => ⟨trans_of Kept h.toKept h'.toKept, h'.records.trans h.records, h'.key.trans h.key⟩⟩

theorem Kept.isCrypted (h : Kept w w') : w'.wallet.isCrypted = w.wallet.isCrypted := by
  rw [CWallet.isCrypted, h.masterKeys]
  rfl

theorem World.MayUpgrade.of_later (hup : w'.MayUpgrade) (hblank : w'.isBlank = w.isBlank)
    (hlater : Later w w') : w.MayUpgrade := by
  obtain ⟨hb, n, hn⟩ := hup
  obtain ⟨k, hk⟩ := hlater
  rw [hk] at hn
  exact ⟨hblank ▸ hb, n + k, hn⟩

theorem Kept.mayUpgrade (h : Kept w w') (hup : w'.MayUpgrade) : w.MayUpgrade :=
  hup.of_later h.blank h.later

theorem dbWrite_steady {f : WalletDb → WalletDb} (hf : ∀ db, (f db).quantum = db.quantum) :
    Along Steady (dbWrite f : WalletM Key Bool) := by
  intro w
  exact wp_dbWrite ⟨⟨rfl, rfl, 1, rfl⟩, hf w.db, rfl⟩ ⟨⟨rfl, rfl, 1, rfl⟩, rfl, rfl⟩
    ⟨⟨rfl, rfl, 1, rfl⟩, rfl, rfl⟩

theorem modifyWallet_steady {f : CWallet Key → CWallet Key}
    (hblank : ∀ w : World Key, (w.modifyWallet f).isBlank = w.isBlank)
    (hmaster : ∀ wallet, (f wallet).mapMasterKeys = wallet.mapMasterKeys)
    (hkey : ∀ wallet, (f wallet).vMasterKey = wallet.vMasterKey) : Along Steady (modifyWallet f) :=
  fun w => ⟨⟨hblank w, hmaster w.wallet, Later.refl w⟩, rfl, hkey w.wallet⟩

theorem KeyChange.steady (f : CWallet Key → CWallet Key) (hf : KeyChange f) : Along Steady (modifyWallet f) := by
  intro w
  obtain ⟨_, _, _, _, _, _, h⟩ := hf w.wallet
  refine ⟨⟨?_, ?_, Later.refl w⟩, rfl, ?_⟩ <;> simp [World.isBlank, World.modifyWallet, h]

theorem updateSpkm_steady (id : Uint256) (f : DescriptorScriptPubKeyMan → DescriptorScriptPubKeyMan) :
    Along Steady (updateSpkm id f : WalletM Key PUnit) := by
  refine modifyWallet_steady (fun w => ?_) (fun _ => rfl) fun _ => rfl
  simp [World.isBlank, World.modifyWallet, CWallet.updateSpkm]

theorem writeCryptedDescriptorKey_steady (id : Uint256) (key : CKey) (pubkey secret : Bytes) :
    Along Steady (writeCryptedDescriptorKey id key pubkey secret : WalletM Key Bool) :=
  .bind (dbWrite_steady fun _ => rfl) fun _ =>
    .ite (.bind (dbWrite_steady fun _ => rfl) fun _ => .pure _) (.pure _)

theorem encryptWalletMnemonicForWallet_steady (masterKey : Bytes) :
    Along Steady (encryptWalletMnemonicForWallet env masterKey) :=
  encryptWalletMnemonicForWallet_walk (Walk.along _) (fun _ => dbWrite_steady fun _ => rfl)
    (fun _ => modifyWallet_steady (fun _ => rfl) (fun _ => rfl) fun _ => rfl) masterKey

theorem readStoredQuantumState_steady : Along Steady (readStoredQuantumState : WalletM Key DBErrors) :=
  readStoredQuantumState_walk (Walk.along _) KeyChange.steady

theorem tryLoadQuantumManagerAfterUnlock_steady : Along Steady (tryLoadQuantumManagerAfterUnlock env) :=
  tryLoadQuantumManagerAfterUnlock_walk (Walk.along _) KeyChange.steady

variable {c c' : KeyState Key}

theorem reseals_write {keys : List QuantumDbKey} {packed : Bytes} (hs : SealedRecord packed) :
    Reseals (· ∈ keys) (· ∈ keys) c.record (c.write keys packed).record := by
  intro key
  by_cases hkey : key ∈ keys
  · exact Or.inl ⟨hkey, packed, if_pos hkey, hs⟩
  · exact Or.inr ⟨hkey, if_neg hkey⟩

theorem KeyState.pack_sealed {origin : UInt8} {mgr : QuantumSafeManager Key} {packed : Bytes}
    (henc : c.encrypting = true) (h : c.pack env origin mgr = some packed) : SealedRecord packed := by
  obtain ⟨plain, -, h⟩ := Option.bind_eq_some_iff.mp h
  obtain ⟨payload, -, h⟩ := Option.bind_eq_some_iff.mp h
  obtain ⟨program, -, rfl⟩ := Option.map_eq_some_iff.mp h
  rw [henc]
  exact sealedRecord_packV2 origin program payload

theorem encryptQuantumKeysForWallet_reseals (masterKey : Bytes) :
    wp (encryptQuantumKeysForWallet env masterKey)
      (fun ok t => ok = true → Kept w t ∧ Reseals w.HeldState
        w.HeldState w.db.quantum t.db.quantum) (fun _ _ => True) w := by
  have hsame : ¬ w.HoldsKey → Kept w w ∧ Reseals w.HeldState
      w.HeldState w.db.quantum w.db.quantum :=
    fun hkey => ⟨refl_of Kept w, fun _ => Or.inr ⟨fun h => hkey h.1, rfl⟩⟩
  rw [encryptQuantumKeysForWallet, wp_bind, wp_get]
  cases hmgr : w.wallet.quantumManager with
  | none => exact fun _ => hsame (by simp [World.HoldsKey, hmgr])
  | some mgr =>
    cases hprogram : w.wallet.quantumProgramBytes with
    | none => exact fun _ => hsame (by simp [World.HoldsKey, hprogram])
    | some program =>
      have hkey : w.HoldsKey := by simp [World.HoldsKey, hmgr, hprogram]
      dsimp only
      cases mgr.serializeDualKeys with
      | none => exact fun h => absurd h (by simp)
      | some plain =>
        dsimp only
        cases env.crypter.encryptSecret masterKey plain (quantumWalletIv env) with
        | none => exact fun h => absurd h (by simp)
        | some cipher =>
          dsimp only
          rw [wp_bind]
          refine wp_dbWrite ?_ (fun h => absurd h (by simp)) trivial
          rw [if_pos rfl, wp_bind, modifyWallet, wp_modify, wp_pure]
          refine fun _ => ⟨⟨rfl, rfl, 1, rfl⟩, ?_⟩
          show Reseals _ _ w.db.quantum (Function.update w.db.quantum .state (some _))
          intro key
          by_cases hstate : key = .state
          · subst hstate
            refine Or.inl ⟨⟨hkey, rfl⟩, _, Function.update_self _ _ _, ?_⟩
            split
            · exact sealedRecord_packV2 _ program cipher
            · exact sealedRecord_packV1 program cipher
          · exact Or.inr ⟨fun h => hstate h.2, Function.update_of_ne hstate _ _⟩

theorem encryptSecrets_reseals (plainMasterKey : Bytes) (nID : Nat) (masterKey : CMasterKey) :
    wp (encryptSecrets env plainMasterKey nID masterKey)
      (fun _ t => Kept w t ∧ Reseals w.HeldState w.HeldState w.db.quantum t.db.quantum) (fun _ _ => True) w := by
  have hkey : Along Steady (writeMasterKey nID masterKey : WalletM Key Bool) := dbWrite_steady fun _ => rfl
  rw [encryptSecrets]
  refine (hkey.and (writeMasterKey_keepsKeys nID masterKey)).wp_bind_of ?_ fun _ _ _ => trivial
  rintro _ t₁ ⟨hs₁, hk₁⟩
  rw [wp_bind, wp_get]
  refine ((encryptSpkms_walk (Walk.along _) updateSpkm_steady writeCryptedDescriptorKey_steady plainMasterKey _).and
    (Along.keysOf (encryptSpkms_keepsSecrets plainMasterKey _))).wp_bind_of ?_ fun _ _ _ => trivial
  rintro _ t₂ ⟨hs₂, hk₂⟩
  have hsteady := trans_of Steady hs₁ hs₂
  have hholds : t₂.HeldState = w.HeldState := by
    have hkeys : KeepsKeys w t₂ := trans_of KeepsKeys hk₁ hk₂
    have hmgr : t₂.wallet.quantumManager = w.wallet.quantumManager := congrArg KeyState.manager hkeys
    have hprogram : t₂.wallet.quantumProgramBytes = w.wallet.quantumProgramBytes :=
      congrArg KeyState.program hkeys
    funext key
    simp only [World.HeldState, World.HoldsKey, hmgr, hprogram]
  rw [wp_bind]
  refine wp_mono (encryptQuantumKeysForWallet_reseals plainMasterKey) ?_ fun _ _ _ => trivial
  intro ok t₃ ht₃
  refine wp_ite (fun hok => ?_) fun _ => trivial
  obtain ⟨hkept, hreseals⟩ := ht₃ hok
  refine Along.wp_of (R := Steady) ((encryptWalletMnemonicForWallet_steady _).bind fun _ => .ite ?_ (.throw _))
    (fun _ t₄ hend => ?_) fun _ _ _ => trivial
  · exact .bind (dbWrite_steady fun _ => rfl) fun _ => .ite (.pure _) (.throw _)
  · refine ⟨trans_of Kept hsteady.toKept (trans_of Kept hkept hend.toKept), ?_⟩
    rwa [hend.records, ← hsteady.records, ← hholds]

theorem lock_kept :
    Along (fun w t : World Key => Kept w t ∧ t.db.quantum = w.db.quantum) (lock : WalletM Key Bool) := by
  intro w
  rw [lock, wp_bind, wp_get]
  exact wp_ite (fun _ => ⟨refl_of Kept w, rfl⟩) fun _ => ⟨⟨rfl, rfl, Later.refl w⟩, rfl⟩

theorem tryGetTaprootDescriptorRootExtKey_of_blank (hb : w.isBlank = true) :
    tryGetTaprootDescriptorRootExtKey env w.wallet = none := by
  have hnone : w.wallet.spkManagers = [] := by
    simpa using (Bool.and_eq_true_iff.mp hb).2
  rw [tryGetTaprootDescriptorRootExtKey, Option.bind_eq_none_iff]
  intro spkm hspkm
  obtain ⟨id, -, hid⟩ := Option.bind_eq_some_iff.mp hspkm
  simp [CWallet.findSpkm, hnone] at hid

theorem Upgraded.reseals (h : Upgraded env w w') (henc : w.wallet.encrypting = true) :
    Reseals (fun _ => False) (fun _ => w.MayUpgrade) w.db.quantum w'.db.quantum := by
  cases h with
  | same h => exact Reseals.of_eq (congrArg KeyState.record h)
  | fromRoot root mgr program _ _ hroot hder _ h =>
    have hup : w.MayUpgrade := by
      refine ⟨?_, 0, derivedKey_outcome hder⟩
      by_contra hb
      rw [tryGetTaprootDescriptorRootExtKey_of_blank (by simpa using hb)] at hroot
      cases hroot
    have hrecord : w'.keyState.record = w'.db.quantum := rfl
    rw [← hrecord]
    generalize w'.keyState = c' at h
    cases h with
    | same => exact Reseals.of_eq rfl
    | wrote o mgr program packed keys taken _ _ _ hpack _ =>
      have henc' : w.keyState.encrypting = true := henc
      have hwrite : Reseals _ _ w.keyState.record (w.keyState.write keys packed).record :=
        reseals_write (KeyState.pack_sealed henc' hpack)
      have hw := hwrite.mono (fun _ h => False.elim h) fun _ _ => hup
      cases taken with
      | true => exact hw
      | false => exact hw

theorem dbWrite_kept (f : WalletDb → WalletDb) : Along Kept (dbWrite f : WalletM Key Bool) :=
  fun _ => wp_dbWrite ⟨rfl, rfl, 1, rfl⟩ ⟨rfl, rfl, 1, rfl⟩ ⟨rfl, rfl, 1, rfl⟩

theorem maybeUpgradeQuantumStateToHdOrigin_kept : Along Kept (maybeUpgradeQuantumStateToHdOrigin env) :=
  maybeUpgradeQuantumStateToHdOrigin_walk (Walk.along _) (fun _ => ⟨rfl, rfl, 1, rfl⟩)
    (fun f hf => (KeyChange.steady f hf).mono fun _ _ h => h.toKept) fun _ _ => dbWrite_kept _

def UnlockSeals (w w' : World Key) : Prop :=
  Kept w w' ∧ Reseals (fun _ => False) (fun _ => w.MayUpgrade) w.db.quantum w'.db.quantum

theorem Steady.unlockSeals (h : Steady w w') : UnlockSeals w w' := ⟨h.toKept, Reseals.of_eq h.records⟩

theorem UnlockSeals.trans {w'' : World Key} (h : UnlockSeals w w') (h' : UnlockSeals w' w'') :
    UnlockSeals w w'' :=
  ⟨trans_of Kept h.1 h'.1, (h.2.trans h'.2).mono (fun _ h => False.elim h)
    fun _ hup => hup.elim id h.1.mayUpgrade⟩

theorem reloadQuantumState_seals (henc : w.wallet.encrypting = true) :
    wp (reloadQuantumState env) (fun _ => UnlockSeals w) (fun _ => UnlockSeals w) w := by
  rw [reloadQuantumState]
  refine readStoredQuantumState_steady.wp_bind_of (fun err t ht => ?_) fun _ _ h => h.unlockSeals
  refine wp_ite (fun _ => ht.unlockSeals) fun _ => ?_
  refine tryLoadQuantumManagerAfterUnlock_steady.wp_bind_of (fun ok t' ht' => ?_) fun _ _ h =>
    (trans_of Steady ht h).unlockSeals
  have hsteady := trans_of Steady ht ht'
  refine wp_ite (fun _ => ?_) fun _ => ?_
  · have henc' : t'.wallet.encrypting = true := by
      rw [CWallet.encrypting, hsteady.toKept.isCrypted, hsteady.key]
      exact henc
    have hup : Along (fun w t => Kept w t ∧ Upgraded env w t) (maybeUpgradeQuantumStateToHdOrigin env) :=
      maybeUpgradeQuantumStateToHdOrigin_kept.and maybeUpgradeQuantumStateToHdOrigin_upgraded
    refine hup.wp_bind_of (fun _ t'' h => ?_) fun _ t'' h => ?_
    all_goals exact hsteady.unlockSeals.trans ⟨h.1, h.2.reseals henc'⟩
  · exact hsteady.unlockSeals.trans ⟨⟨rfl, rfl, Later.refl _⟩, Reseals.of_eq rfl⟩

theorem unlockWithKey_seals {key : Bytes} (hkey : key ≠ []) (hc : w.wallet.isCrypted = true) :
    wp (unlockWithKey env key) (fun _ => UnlockSeals w) (fun _ => UnlockSeals w) w := by
  rw [unlockWithKey, wp_bind, wp_get]
  refine (checkDecryptionKeys_walk (Walk.along _) .throw updateSpkm_steady _ _).wp_bind_of (fun ok t ht => ?_) fun _ _ h => h.unlockSeals
  refine wp_ite (fun _ => ?_) fun _ => ht.unlockSeals
  rw [wp_bind, modifyWallet, wp_modify]
  have hset : UnlockSeals t (t.modifyWallet fun wallet => { wallet with vMasterKey := key }) :=
    ⟨⟨rfl, rfl, Later.refl _⟩, Reseals.of_eq rfl⟩
  have henc : (t.modifyWallet fun wallet => { wallet with vMasterKey := key }).wallet.encrypting = true := by
    have hcrypted : t.wallet.isCrypted = true := ht.toKept.isCrypted.trans hc
    simpa [CWallet.encrypting, World.modifyWallet, CWallet.isCrypted, hkey] using hcrypted
  have hbefore := ht.unlockSeals.trans hset
  exact wp_mono (reloadQuantumState_seals henc) (fun _ _ => hbefore.trans) fun _ _ => hbefore.trans

theorem unlock_seals {passphrase : Bytes} {key : Uint256} {entry : Nat × CMasterKey}
    (hone : w.wallet.mapMasterKeys = [entry])
    (hopens : OpensOnly env.crypter key w.wallet.mapMasterKeys passphrase) :
    wp (unlock env passphrase) (fun _ => UnlockSeals w) (fun _ => UnlockSeals w) w := by
  rw [unlock, wp_bind, wp_get, hone, unlockWithMasterKeys]
  cases hd : decryptMasterKey env.crypter passphrase entry.2 with
  | none => exact (refl_of Steady w).unlockSeals
  | some plain =>
    obtain rfl := hopens entry (by simp [hone]) plain hd
    refine Iff.mpr wp_bind ?_
    refine wp.imp (unlockWithKey_seals (uint256_ne_nil key) (by simp [CWallet.isCrypted, hone])) (fun ok t ht => ?_)
    exact wp_ite (fun _ => ht) fun _ => ht

def SetUpSealed (env : WalletEnv Key) (w w' : World Key) : Prop :=
  w.wallet.isLocked = false ∧ StoredFromRoot env false w.keyState w'.keyState

theorem SetUpSealed.keepsKeys {w'' : World Key} (h : SetUpSealed env w w') (h' : KeepsKeys w' w'') :
    SetUpSealed env w w'' := by
  rw [SetUpSealed, show w''.keyState = w'.keyState from h']
  exact h

theorem setupDescriptorScriptPubKeyMansFrom_sealed (root : CExtKey) :
    wp (setupDescriptorScriptPubKeyMansFrom env root) (fun _ => SetUpSealed env w) (fun _ _ => True) w := by
  refine wp_setupDescriptorScriptPubKeyMansFrom (fun _ _ _ => trivial) fun t ht hl => ?_
  refine wp_mono (persistQuantumKeyMaterialFromHdMaster_spec root false) ?_ fun _ _ _ => trivial
  rintro ok u ⟨-, hu⟩ v hv
  have hsame : t.keyState = w.keyState := ht.keysOf
  refine ⟨fun hok => ?_, fun _ => trivial⟩
  have hset : SetUpSealed env w u := ⟨hl, hsame ▸ hu hok⟩
  exact hset.keepsKeys hv.keysOf

theorem setupDescriptorScriptPubKeyMansFromEntropy_sealed (entropy : Uint256)
    (hnone : w.wallet.spkManagers = []) :
    wp (setupDescriptorScriptPubKeyMansFromEntropy env entropy) (fun _ => SetUpSealed env w)
      (fun _ _ => True) w := by
  rw [setupDescriptorScriptPubKeyMansFromEntropy, wp_bind, wp_get, if_neg (by simp [hnone])]
  refine wp_ite (fun _ => trivial) fun _ => ?_
  cases env.masterExtKeyFromEntropy entropy with
  | none => trivial
  | some root =>
    dsimp only
    rw [wp_bind]
    refine wp_mono (setupDescriptorScriptPubKeyMansFrom_sealed root) (fun _ t ht => ?_) fun _ _ _ => trivial
    refine (persistWalletMnemonic_keepsKeys _).wp_bind_of (fun _ u hu => ?_) fun _ _ _ => trivial
    exact wp_ite (fun _ => ht.keepsKeys hu) fun _ => trivial

theorem setupFromEntropy_sealed (entropy : Uint256) (hnone : w.wallet.spkManagers = []) :
    wp (setupFromEntropy env entropy) (fun ok t => ok = true → SetUpSealed env w t) (fun _ _ => True) w := by
  have hid : Along KeepsKeys (dbWrite id : WalletM Key Bool) := dbWrite_keepsKeys fun _ => rfl
  rw [setupFromEntropy, runWithinTxn, wp_bind]
  refine wp_dbWrite ?_ (by simp) trivial
  rw [if_pos rfl, wp_bind, wp_get, wp_restoringDb, wp_bind, wp_bind]
  refine wp_mono (setupDescriptorScriptPubKeyMansFromEntropy_sealed entropy hnone) (fun _ t ht => ?_)
    fun _ _ _ => trivial
  rw [wp_pure, if_pos rfl]
  refine hid.wp_of (fun ok u hu hok => ?_) fun _ _ _ => trivial
  rw [hok]
  exact ht.keepsKeys hu

theorem setupIfBlank_sealed : wp (setupIfBlank env)
      (fun _ t => (w.isBlank = true → SetUpSealed env w t) ∧ (w.isBlank = false → t = w))
      (fun _ _ => True) w := by
  rw [setupIfBlank, wp_bind, wp_get]
  refine wp_ite (fun hb => ?_) fun hb => ?_
  · have hb' : w.isBlank = true := hb
    rw [setupDescriptorScriptPubKeyMans, wp_bind, wp_nextOutcome, wp_bind]
    refine wp_mono (setupFromEntropy_sealed _ ?_) (fun ok t ht => ?_) fun _ _ _ => trivial
    · simpa using (Bool.and_eq_true_iff.mp hb).2
    · exact wp_ite (fun hok => ⟨fun _ => ht hok, fun h => absurd (hb'.symm.trans h) (by simp)⟩)
        fun _ => trivial
  · exact ⟨fun h => absurd h hb, fun _ => rfl⟩

theorem SetUpSealed.reseals (h : SetUpSealed env w w') (hc : w.wallet.isCrypted = true) :
    Reseals w.FirstRecords
      w.FirstRecords
      w.db.quantum w'.db.quantum := by
  obtain ⟨hl, hstored⟩ := h
  cases hstored with
  | kept hread hrecord => exact fun key => Or.inr ⟨fun h => hread h.1, congrFun hrecord key⟩
  | wrote mgr packed hwhy hpack hrecord =>
    have hread := hwhy.resolve_left (by simp)
    have henc : w.keyState.encrypting = true := by
      rw [CWallet.isLocked, hc, Bool.true_and] at hl
      change (w.wallet.isCrypted && !w.wallet.vMasterKey.isEmpty) = true
      rw [hc, hl]
      rfl
    have hwrite : Reseals _ _ w.keyState.record (w.keyState.write [.state, .indexState 0] packed).record :=
      reseals_write (KeyState.pack_sealed henc hpack)
    have hq : w'.db.quantum = (w.keyState.write [.state, .indexState 0] packed).record := hrecord
    rw [hq]
    refine hwrite.mono (fun key h => ?_) fun key h => ⟨hread, ?_⟩
    · simpa using h.2
    · simpa using h

theorem readQuantum_ne_none_of_sealed {db : WalletDb} {key : QuantumDbKey}
    (h : SealedAt (db.quantum key)) : db.readQuantum key ≠ none := by
  obtain ⟨raw, hraw, hsealed⟩ := h
  rw [WalletDb.readQuantum, hraw, Option.bind_some, if_neg hsealed.ne_nil]
  simp

theorem World.rewrites_of_holdsKey (h : w.HoldsKey) (key : QuantumDbKey) : w.Rewrites key ↔ key = .state := by
  simp [World.Rewrites, h]

theorem World.rewrites_of_not_holdsKey (h : ¬ w.HoldsKey) (key : QuantumDbKey) : w.Rewrites key ↔
      w.isBlank = true ∧ w.db.readQuantum .state = none ∧ (key = .state ∨ key = .indexState 0) := by
  simp [World.Rewrites, h]

theorem reseals_encrypted {t u v : World Key}
    (hsecrets : Reseals w.HeldState w.HeldState
      w.db.quantum t.db.quantum)
    (hunlock : Reseals (fun _ => False) (fun _ => w.MayUpgrade) t.db.quantum u.db.quantum)
    (hsetup : w.isBlank = true →
      Reseals u.FirstRecords
        u.FirstRecords
        u.db.quantum v.db.quantum) (hrest : w.isBlank = false → v.db.quantum = u.db.quantum) :
    Reseals w.Rewrites (fun key => w.Rewrites key ∨ w.MayUpgrade) w.db.quantum v.db.quantum := by
  cases hb : w.isBlank with
  | false =>
    rw [hrest hb]
    have hiff : ∀ key, w.Rewrites key ↔ w.HoldsKey ∧ key = .state := by
      intro key
      by_cases hkey : w.HoldsKey
      · simp [World.rewrites_of_holdsKey hkey, hkey]
      · simp [World.rewrites_of_not_holdsKey hkey, hkey, hb]
    refine (hsecrets.trans hunlock).mono (fun key h => Or.inl ((hiff key).mp h)) fun key h => ?_
    exact h.imp_left (hiff key).mpr
  | true =>
    have hquiet : ¬ w.MayUpgrade := fun h => by simp [h.1] at hb
    have hsame : u.db.quantum = t.db.quantum := by
      funext key
      rcases hunlock key with ⟨hup, -⟩ | ⟨-, h⟩
      · exact absurd hup hquiet
      · exact h
    have hset := hsetup hb
    by_cases hkey : w.HoldsKey
    · have hread : u.db.readQuantum .state ≠ none := by
        refine readQuantum_ne_none_of_sealed ?_
        rw [hsame]
        rcases hsecrets .state with ⟨-, h⟩ | ⟨h, -⟩
        · exact h
        · exact absurd ⟨hkey, rfl⟩ h
      refine (hsecrets.trans (hsame ▸ hset)).mono (fun key h => Or.inl ⟨hkey, ?_⟩) fun key h => ?_
      · exact (World.rewrites_of_holdsKey hkey key).mp h
      · rcases h with h | h
        · exact Or.inl ((World.rewrites_of_holdsKey hkey key).mpr h.2)
        · exact absurd h.1 hread
    · have hq : u.db.quantum = w.db.quantum := by
        funext key
        rcases hsecrets key with ⟨h, -⟩ | ⟨-, h⟩
        · exact absurd h.1 hkey
        · rw [hsame, h]
      have hfirst : u.FirstRecords = w.FirstRecords := by
        funext key
        simp only [World.FirstRecords, WalletDb.readQuantum, hq]
      rw [hq, hfirst] at hset
      refine hset.mono (fun key h => ?_) fun key h => Or.inl ?_
      · exact ((World.rewrites_of_not_holdsKey hkey key).mp h).2
      · exact (World.rewrites_of_not_holdsKey hkey key).mpr ⟨hb, h⟩

theorem encryptWallet_reseals (passphrase : Bytes) : wp (encryptWallet env passphrase)
      (fun ok t => ok = true →
        Reseals w.Rewrites (fun key => w.Rewrites key ∨ w.MayUpgrade) w.db.quantum t.db.quantum)
      (fun _ _ => True) w := by
  refine wp_encryptWallet (fun _ => by simp) fun masterKey _ hone hopens => ?_
  refine wp_dbWrite ?_ (by simp) trivial
  refine wp_mono (encryptSecrets_reseals _ _ _) ?_ fun _ _ _ => trivial
  rintro _ t₁ ⟨hk₁, hr₁⟩
  rw [finishEncryption]
  refine lock_kept.wp_bind_of ?_ fun _ _ _ => trivial
  rintro _ t₂ ⟨hk₂, hq₂⟩
  have hkept := trans_of Kept hk₁ hk₂
  have hone₂ := hkept.masterKeys.trans hone
  rw [wp_bind]
  refine wp_mono (unlock_seals hone₂ (hone₂.trans hone.symm ▸ hopens)) ?_ fun _ _ _ => trivial
  rintro _ t₃ ⟨hk₃, hr₃⟩
  rw [wp_bind]
  refine wp_mono setupIfBlank_sealed ?_ fun _ _ _ => trivial
  rintro _ t₄ ⟨hset, hskip⟩
  refine lock_kept.wp_bind_of ?_ fun _ _ _ => trivial
  rintro _ t₅ ⟨-, hq₅⟩ _
  have hall := trans_of Kept hkept hk₃
  have hcrypted : t₃.wallet.isCrypted = true := by
    rw [CWallet.isCrypted, hall.masterKeys, World.modifyDb, World.tail, hone]
    rfl
  have hblank₃ : t₃.isBlank = w.isBlank := hall.blank
  rw [hq₅]
  refine reseals_encrypted ?_ (hr₃.mono (fun _ h => h) fun _ hup => ?_) (fun hb => ?_) fun hb => ?_
  · rw [hq₂]
    exact hr₁
  · exact (hkept.mayUpgrade hup).of_later rfl ⟨3, rfl⟩
  · exact (hset (hblank₃.trans hb)).reseals hcrypted
  · rw [hskip (hblank₃.trans hb)]

def Outcome.withoutKeygen (o : Outcome) : Outcome := { o with keygen := ⟨.keypairFails, .succeeds⟩ }

def World.withoutKeygen (w : World Key) : World Key :=
  { w with outcomes := fun n => (w.outcomes n).withoutKeygen }

theorem World.withoutKeygen_fails (w : World Key) (n : Nat) :
    (w.withoutKeygen.outcomes n).keygen ≠ ⟨.succeeds, .succeeds⟩ := by
  intro hn
  have hfails := hn
  cases hfails

theorem modifyWallet_blind (f : CWallet Key → CWallet Key) : Blind World.withoutKeygen (modifyWallet f) :=
  Blind.modify fun _ => rfl

theorem dbWrite_blind (f : WalletDb → WalletDb) :
    Blind World.withoutKeygen (dbWrite f : WalletM Key Bool) := by
  intro w
  have hstart : ∀ w : World Key, (dbWrite f : WalletM Key Bool).run w =
      (dbCall (fun _ => (w.outcomes 0).db) f : WalletM Key Bool).run w := fun _ => rfl
  rw [hstart, hstart, show (w.withoutKeygen.outcomes 0).db = (w.outcomes 0).db from rfl]
  cases (w.outcomes 0).db with
  | succeeds => rfl
  | fails => rfl
  | crashes => rfl

theorem restoringDb_blind {α : Type} (db : WalletDb) {keep : α → Bool} {body : WalletM Key α}
    (h : Blind World.withoutKeygen body) : Blind World.withoutKeygen (restoringDb db keep body) := by
  intro w
  have hrun : ∀ w, (restoringDb db keep body).run w = restoringDb db keep body w := fun _ => rfl
  simp only [hrun, restoringDb, h w]
  rcases body.run w with ⟨_ | a, t⟩
  · rfl
  · cases hk : keep a with
    | true => simp [hk]
    | false =>
      simp only [hk]
      rfl

theorem withoutKeygen_walk : Walk fun _ (c : WalletM Key _) => Blind World.withoutKeygen c where
  pure := Blind.pure
  crash := Blind.throw _
  bind := Blind.bind
  get hsame := Blind.get_bind fun w => hsame w _

theorem encryptSecrets_blind (plainMasterKey : Bytes) (nID : Nat) (masterKey : CMasterKey) :
    Blind World.withoutKeygen (encryptSecrets env plainMasterKey nID masterKey) :=
  encryptSecrets_walk_of_steps withoutKeygen_walk dbWrite_blind modifyWallet_blind plainMasterKey nID masterKey

theorem checkDecryptionKeys_blind (masterKey : Bytes) (spkms : List DescriptorScriptPubKeyMan) :
    Blind World.withoutKeygen (checkDecryptionKeys env masterKey spkms) :=
  checkDecryptionKeys_walk withoutKeygen_walk Blind.throw (fun _ _ => modifyWallet_blind _) masterKey spkms

theorem lock_blind : Blind World.withoutKeygen (lock : WalletM Key Bool) :=
  Blind.get_bind (fun _ => rfl) fun _ =>
    Blind.ite (Blind.pure _) ((modifyWallet_blind _).bind fun _ => Blind.pure _)

theorem readStoredQuantumState_blind :
    Blind World.withoutKeygen (readStoredQuantumState : WalletM Key DBErrors) :=
  readStoredQuantumState_walk withoutKeygen_walk fun _ _ => modifyWallet_blind _

theorem tryLoadQuantumManagerAfterUnlock_blind :
    Blind World.withoutKeygen (tryLoadQuantumManagerAfterUnlock env) :=
  tryLoadQuantumManagerAfterUnlock_walk withoutKeygen_walk fun _ _ => modifyWallet_blind _

theorem maybeUpgradeQuantumStateToHdOrigin_withoutKeygen :
    wp (maybeUpgradeQuantumStateToHdOrigin env) (fun _ t => t.isBlank = w.isBlank) (fun _ _ => False)
      w.withoutKeygen := by
  rw [maybeUpgradeQuantumStateToHdOrigin, wp_bind, wp_get]
  refine wp_ite (fun _ => rfl) fun _ => ?_
  cases w.withoutKeygen.wallet.quantumProgramBytes with
  | none => rfl
  | some program =>
    dsimp only
    cases tryGetTaprootDescriptorRootExtKey env w.withoutKeygen.wallet with
    | none => rfl
    | some root =>
      simp only [deriveQuantumProgramForKey, deriveQuantumManagerForKey, wp_bind, wp_nextOutcome, wp_pure]
      have hnone : derivedKey env root ⟨false, 0⟩ (w.withoutKeygen.outcomes 0).keygen = none := by
        rw [Option.eq_none_iff_forall_not_mem]
        intro mgr hmgr
        exact w.withoutKeygen_fails 0 (derivedKey_outcome hmgr)
      rw [derivedKey] at hnone
      rw [hnone]
      rfl

theorem nextOutcome_follows {β : Type} {k : Outcome → WalletM Key β} {Q : β → β → World Key → Prop}
    (hsame : ∀ o, k o.withoutKeygen = k o)
    (hk : Follows World.withoutKeygen (k (w.outcomes 0)) Q w.tail) :
    Follows World.withoutKeygen (nextOutcome >>= k) Q w := by
  intro b u h
  have hend := hk b u h
  rw [wp_bind, wp_nextOutcome]
  exact (hsame (w.outcomes 0)).symm ▸ hend

theorem reloadQuantumState_follows (hb : w.isBlank = false) :
    Follows World.withoutKeygen (reloadQuantumState env) (fun _ _ t => t.isBlank = false) w := by
  refine Follows.blind_bind readStoredQuantumState_blind fun err t ht => ?_
  have hb' : t.isBlank = false := (readStoredQuantumState_steady.run_eq ht).blank.trans hb
  refine Follows.ite (fun _ => Follows.of_wp fun _ => hb') fun _ => ?_
  refine Follows.blind_bind tryLoadQuantumManagerAfterUnlock_blind fun ok u hu => ?_
  have hb'' : u.isBlank = false := (tryLoadQuantumManagerAfterUnlock_steady.run_eq hu).blank.trans hb'
  refine Follows.ite (fun _ => Follows.of_wp fun _ => ?_) fun _ => Follows.of_wp fun _ => hb''
  exact wp.seq maybeUpgradeQuantumStateToHdOrigin_withoutKeygen (fun _ t h => h.trans hb'')

theorem unlockWithKey_follows (key : Bytes) (hb : w.isBlank = false) :
    Follows World.withoutKeygen (unlockWithKey env key) (fun _ _ t => t.isBlank = false) w := by
  refine Follows.get_bind rfl (Follows.blind_bind (checkDecryptionKeys_blind _ _) fun ok t ht => ?_)
  have hb' : t.isBlank = false := ((checkDecryptionKeys_walk (Walk.along _) .throw updateSpkm_steady _ _).run_eq ht).blank.trans hb
  refine Follows.ite (fun _ => ?_) fun _ => Follows.of_wp fun _ => hb'
  refine Follows.blind_bind (modifyWallet_blind _) fun _ u hu => reloadQuantumState_follows ?_
  cases hu
  exact hb'

theorem unlock_follows (passphrase : Bytes) {entry : Nat × CMasterKey}
    (hone : w.wallet.mapMasterKeys = [entry]) (hb : w.isBlank = false) :
    Follows World.withoutKeygen (unlock env passphrase) (fun _ _ t => t.isBlank = false) w := by
  refine Follows.get_bind rfl ?_
  rw [hone, unlockWithMasterKeys]
  cases decryptMasterKey env.crypter passphrase entry.2 with
  | none => exact Follows.of_wp fun _ => hb
  | some plain =>
    refine (unlockWithKey_follows plain hb).bind fun _ ok t t' _ _ ht' _ => ?_
    exact wp_ite (fun _ => ht') fun _ => ht'

/-- Encrypting a wallet that is not blank does not need a key to be derived. -/
theorem encryptWallet_follows (passphrase : Bytes) (hb : w.isBlank = false) :
    Follows World.withoutKeygen (encryptWallet env passphrase) (fun ok ok' _ => ok = true → ok' = true)
      w := by
  refine Follows.get_bind rfl (Follows.ite (fun _ => fun ok t h hok => ?_) fun hplain => ?_)
  · cases h
    cases hok
  refine nextOutcome_follows (fun _ => rfl) (nextOutcome_follows (fun _ => rfl) ?_)
  dsimp only
  generalize w.outcomes 0 = plainMasterKey
  cases encryptMasterKey env.crypter passphrase plainMasterKey.random.val
    ((w.outcomes (0 + 1)).random.val.take walletCryptoSaltSize) (w.outcomes (0 + 1)).deriveIterations with
  | none =>
    intro ok t h hok
    cases h
    cases hok
  | some masterKey =>
    refine Follows.blind_bind (modifyWallet_blind _) fun _ t₀ ht₀ => ?_
    have hone : t₀.wallet.mapMasterKeys = [(w.wallet.nMasterKeyMaxID + 1, masterKey)] := by
      have hnil : w.wallet.mapMasterKeys = [] := by
        simpa [CWallet.isCrypted] using hplain
      cases ht₀
      change mapInsert _ masterKey w.wallet.mapMasterKeys = _
      rw [hnil]
      rfl
    have hb₀ : t₀.isBlank = false := by
      cases ht₀
      exact hb
    refine Follows.blind_bind (dbWrite_blind _) fun ok t₁ ht₁ => ?_
    have hk₁ := ((dbWrite_kept _).run_eq ht₁)
    refine Follows.ite (fun _ => Follows.get_bind rfl ?_) fun hok b u h hb => ?_
    · refine Follows.blind_bind (restoringDb_blind _ (encryptSecrets_blind _ _ _)) fun _ t₂ ht₂ => ?_
      have hsecrets : wp (restoringDb t₁.db (fun _ => true) (encryptSecrets env plainMasterKey.random.val
          (w.wallet.nMasterKeyMaxID + 1) masterKey)) (fun _ t => Kept t₁ t) (fun _ _ => True) t₁ := by
        rw [wp_restoringDb]
        exact wp.imp (encryptSecrets_reseals _ _ _) (fun _ _ h => h.1)
      have hk₂ := hsecrets.of_run_eq ht₂
      refine Follows.blind_bind lock_blind fun _ t₃ ht₃ => ?_
      have hk₃ := trans_of Kept hk₁ (trans_of Kept hk₂ (lock_kept.run_eq ht₃).1)
      refine (unlock_follows passphrase (hk₃.masterKeys.trans hone) (hk₃.blank.trans hb₀)).bind ?_
      intro _ _ t t₄ b u hb₄ h
      rw [setupIfBlank, wp_bind, wp_bind, wp_get, if_neg (by simpa [World.isBlank] using hb₄), wp_pure,
        lock, wp_bind, wp_bind, wp_get]
      exact wp_ite (fun _ _ => rfl) fun _ _ => rfl
    · cases h
      cases hb

theorem Encryptable.of_fst {passphrase : Bytes} {outcomes : Nat → Outcome}
    (h : ((encryptWallet env passphrase).run { w with outcomes := outcomes }).1 = .ok true) : Encryptable env w :=
  ⟨passphrase, outcomes, _, Prod.ext h rfl⟩

theorem Encryptable.quietly (h : Encryptable env w) : ∃ passphrase outcomes t,
      (encryptWallet env passphrase).run { w with outcomes := outcomes } = (.ok true, t) ∧
        ¬ World.MayUpgrade { w with outcomes := outcomes } := by
  obtain ⟨passphrase, outcomes, t, hrun⟩ := h
  cases hb : w.isBlank with
  | true => exact ⟨passphrase, outcomes, t, hrun, fun hup => by simp [show w.isBlank = false from hup.1] at hb⟩
  | false =>
    have hb' : World.isBlank { w with outcomes := outcomes } = false := hb
    obtain ⟨ok, u, hu, hok⟩ := (encryptWallet_follows passphrase hb' true t hrun).exists_run_eq
    rw [hok rfl] at hu
    refine ⟨passphrase, fun n => (outcomes n).withoutKeygen, u, hu, ?_⟩
    rintro ⟨-, n, hn⟩
    exact World.withoutKeygen_fails { w with outcomes := outcomes } n hn

/-- Encrypting leaves only sealed records behind exactly if every stored record is
sealed already or is one of those that are written. -/
theorem encryptsSealed_iff (env : WalletEnv Key) (w : World Key) (h : Encryptable env w) :
    EncryptsSealed env w ↔ w.Sealable := by
  constructor
  · intro hsealed key raw hraw
    obtain ⟨passphrase, outcomes, t, hrun, hquiet⟩ := h.quietly
    have hreseals := (encryptWallet_reseals passphrase).of_run_eq hrun rfl key
    rcases hreseals with ⟨hmay, -⟩ | ⟨-, hsame⟩
    · exact Or.inr (hmay.resolve_right hquiet)
    · exact Or.inl (hsealed passphrase outcomes t hrun key raw (hsame.trans hraw))
  · intro hsealable passphrase outcomes t hrun key raw hraw
    have hreseals := (encryptWallet_reseals passphrase).of_run_eq hrun rfl key
    rcases hreseals with ⟨-, raw', hraw', hsealed⟩ | ⟨hmust, hsame⟩
    · rw [hraw] at hraw'
      obtain rfl := Option.some.inj hraw'
      exact hsealed
    · exact (hsealable key raw (hsame.symm.trans hraw)).resolve_right hmust
end

/-- A wallet of before there were records by index: the record of its key is the
one of old wallets. -/
def sampleOldWorld : World UInt8 :=
  (walletRun sampleWalletEnv (World.new UInt8 1 sampleSucceeds) sampleAddressEvents).modifyDb fun db =>
    { db with quantum := fun key => if key = .state then db.quantum key else none }

theorem sampleOldWorld_encrypts : sampleOldWorld.HoldsKey ∧
    (sampleOldWorld.db.quantum .state).any (fun raw => !decide (SealedRecord raw)) = true ∧
    ((encryptWallet sampleWalletEnv [1]).run { sampleOldWorld with outcomes := sampleSucceeds }).1 =
      .ok true := by
  decide +kernel

/-- Such a wallet has a record in plain text, and none once it is encrypted. -/
theorem encryptsSealed_old : ¬ sampleOldWorld.db.AllSealed ∧ Encryptable sampleWalletEnv sampleOldWorld ∧
      EncryptsSealed sampleWalletEnv sampleOldWorld := by
  obtain ⟨hkey, hplain, hok⟩ := sampleOldWorld_encrypts
  have hrun : Encryptable sampleWalletEnv sampleOldWorld := .of_fst hok
  refine ⟨fun hall => ?_, hrun, (encryptsSealed_iff sampleWalletEnv sampleOldWorld hrun).mpr ?_⟩
  · obtain ⟨raw, hraw, hnot⟩ := (Option.any_eq_true _ _).mp hplain
    simp [hall .state raw hraw] at hnot
  · intro key raw hraw
    obtain ⟨hstate, -⟩ := Option.ite_none_right_eq_some.mp hraw
    refine Or.inr ?_
    rwa [World.Rewrites, if_pos hkey]

theorem sampleAddress_encrypts :
    ((encryptWallet sampleWalletEnv [1]).run { walletRun sampleWalletEnv (World.new UInt8 1 sampleSucceeds)
      sampleAddressEvents with outcomes := sampleSucceeds }).1 = .ok true := by decide +kernel

theorem sampleAddress_plain :
    (((encryptWallet sampleWalletEnv [1]).run { walletRun sampleWalletEnv (World.new UInt8 1 sampleSucceeds)
      sampleAddressEvents with outcomes := sampleSucceeds }).2.db.quantum (.indexState 0)).any
        (fun raw => !decide (SealedRecord raw)) = true := by decide +kernel

/-- Once an address was handed out, its record stays in plain text when the
wallet is encrypted. -/
theorem encryptWallet_leaves_plain :
    let w := walletRun sampleWalletEnv (World.new UInt8 1 sampleSucceeds) sampleAddressEvents
    Encryptable sampleWalletEnv w ∧ ¬ EncryptsSealed sampleWalletEnv w := by
  have hok := sampleAddress_encrypts
  have hplain := sampleAddress_plain
  generalize walletRun sampleWalletEnv (World.new UInt8 1 sampleSucceeds) sampleAddressEvents = w at *
  refine ⟨.of_fst hok, fun h => ?_⟩
  have hsealed := h [1] sampleSucceeds _ (Prod.ext hok rfl) (.indexState 0)
  generalize ((encryptWallet sampleWalletEnv [1]).run { w with outcomes := sampleSucceeds }).2.db.quantum
    (.indexState 0) = record at hplain hsealed
  cases record with
  | none => cases hplain
  | some raw => simp [hsealed raw rfl] at hplain

end Byze
