import Byze.Wallet.Run

/-! Walks through the wallet's code: what holds of the steps of a program holds of the
program. -/

namespace Byze
open StateWp
variable {Key : Type}

structure Walk (P : (α : Type) → WalletM Key α → Prop) : Prop where
  pure : ∀ {α : Type} (a : α), P α (pure a)
  crash : ∀ {α : Type}, P α (throw .crash)
  bind : ∀ {α β : Type} {c : WalletM Key α} {k : α → WalletM Key β}, P α c → (∀ a, P β (k a)) → P β (c >>= k)
  get : ∀ {β : Type} {k : World Key → WalletM Key β}, (∀ w outcomes, k { w with outcomes := outcomes } = k w) →
    (∀ w, P β (k w)) → P β (get >>= k)

/-- A change of the wallet that is one of its quantum keys in memory only. -/
def KeyChange (f : CWallet Key → CWallet Key) : Prop :=
  ∀ wallet, ∃ format origin program storage encrypted mgr, f wallet = { wallet with
      quantumBlobFormat := format
      quantumKeyOrigin := origin
      quantumProgramBytes := program
      quantumSecretStorage := storage
      quantumSecretIsEncrypted := encrypted
      quantumManager := mgr }

theorem Walk.along (R : World Key → World Key → Prop) [Std.Refl R] [IsTrans (World Key) R] :
    Walk fun _ => Along R where
  pure := Along.pure
  crash := .throw _
  bind := Along.bind
  get _ hk := Along.get.bind hk

section
variable {env : WalletEnv Key} {P : (α : Type) → WalletM Key α → Prop}

theorem Walk.ite (_ : Walk P) {α : Type} {p : Prop} [Decidable p] {c d : WalletM Key α} (hc : P α c)
    (hd : P α d) : P α (if p then c else d) := by
  by_cases hp : p
  · rwa [if_pos hp]
  · rwa [if_neg hp]

variable (hP : Walk P)
include hP

theorem writeCryptedDescriptorKey_walk (hdb : ∀ f, P _ (dbWrite f)) (id : Uint256) (key : CKey)
    (pubkey secret : Bytes) : P _ (writeCryptedDescriptorKey id key pubkey secret) :=
  hP.bind (hdb _) fun _ => hP.ite (hP.bind (hdb _) fun _ => hP.pure _) (hP.pure _)

theorem encryptKeys_walk (hspkm : ∀ id f, P _ (updateSpkm id f))
    (hwrite : ∀ id key pubkey secret, P _ (writeCryptedDescriptorKey id key pubkey secret))
    (masterKey : Bytes) (id : Uint256) (keys : List CKey) : P _ (encryptKeys env masterKey id keys) := by
  induction keys with
  | nil => exact hP.pure _
  | cons key keys ih =>
    simp only [encryptKeys]
    cases env.crypter.encryptSecret masterKey key.val (hash256 env.hashes (env.getPubKey key)) with
    | none => exact hP.pure _
    | some secret => exact hP.bind (hspkm _ _) fun _ => hP.bind (hwrite _ _ _ _) fun _ => ih

theorem encryptSpkms_walk (hspkm : ∀ id f, P _ (updateSpkm id f))
    (hwrite : ∀ id key pubkey secret, P _ (writeCryptedDescriptorKey id key pubkey secret))
    (masterKey : Bytes) (spkms : List DescriptorScriptPubKeyMan) : P _ (encryptSpkms env masterKey spkms) := by
  induction spkms with
  | nil => exact hP.pure _
  | cons spkm spkms ih =>
    refine hP.bind (hP.ite (hP.pure _) ?_) fun _ => hP.ite ih hP.crash
    refine hP.bind (encryptKeys_walk hP hspkm hwrite _ _ _) fun _ => hP.ite ?_ (hP.pure _)
    exact hP.bind (hspkm _ _) fun _ => hP.pure _

theorem encryptQuantumKeysForWallet_walk
    (hwrite : ∀ packed, P _ (dbWrite (WalletDb.writeQuantum .state packed)))
    (hkeys : ∀ f, KeyChange f → P _ (modifyWallet f)) (masterKey : Bytes) :
    P _ (encryptQuantumKeysForWallet env masterKey) := by
  refine hP.get (fun _ _ => rfl) fun w => ?_
  cases w.wallet.quantumManager with
  | none => exact hP.pure _
  | some mgr =>
    cases w.wallet.quantumProgramBytes with
    | none => exact hP.pure _
    | some program =>
      dsimp only
      cases mgr.serializeDualKeys with
      | none => exact hP.pure _
      | some plain =>
        dsimp only
        cases env.crypter.encryptSecret masterKey plain (quantumWalletIv env) with
        | none => exact hP.pure _
        | some cipher =>
          refine hP.bind (hwrite _) fun _ => hP.ite ?_ (hP.pure _)
          exact hP.bind (hkeys _ fun _ => ⟨_, _, _, _, _, _, rfl⟩) fun _ => hP.pure _

theorem encryptWalletMnemonicForWallet_walk (hwrite : ∀ cipher, P _ (writeWalletMnemonic cipher))
    (hstorage : ∀ cipher, P _ (modifyWallet fun wallet =>
      { wallet with mnemonicStorage := cipher, mnemonicIsEncrypted := true }))
    (masterKey : Bytes) : P _ (encryptWalletMnemonicForWallet env masterKey) := by
  refine hP.get (fun _ _ => rfl) fun w => hP.ite (hP.pure _) (hP.ite (hP.pure _) ?_)
  cases env.crypter.encryptSecret masterKey w.wallet.mnemonicStorage (mnemonicWalletIv env) with
  | none => exact hP.pure _
  | some cipher =>
    refine hP.bind (hwrite _) fun _ => hP.ite ?_ (hP.pure _)
    exact hP.bind (hstorage _) fun _ => hP.pure _

theorem encryptSecrets_walk {plainMasterKey : Bytes} {nID : Nat} {masterKey : CMasterKey}
    (hkey : P _ (writeMasterKey nID masterKey))
    (hspkms : ∀ spkms, P _ (encryptSpkms env plainMasterKey spkms))
    (hquantum : P _ (encryptQuantumKeysForWallet env plainMasterKey))
    (hmnemonic : P _ (encryptWalletMnemonicForWallet env plainMasterKey)) (hend : P _ (dbWrite fun db => db)) :
    P _ (encryptSecrets env plainMasterKey nID masterKey) := by
  refine hP.bind hkey fun _ => hP.get (fun _ _ => rfl) fun w => hP.bind (hspkms _) fun _ => ?_
  refine hP.bind hquantum fun _ => hP.ite ?_ hP.crash
  refine hP.bind hmnemonic fun _ => hP.ite ?_ hP.crash
  exact hP.bind hend fun _ => hP.ite (hP.pure _) hP.crash

theorem encryptSecrets_walk_of_steps (hdb : ∀ f, P _ (dbWrite f)) (hmodify : ∀ f, P _ (modifyWallet f))
    (plainMasterKey : Bytes) (nID : Nat) (masterKey : CMasterKey) :
    P _ (encryptSecrets env plainMasterKey nID masterKey) :=
  encryptSecrets_walk hP (hdb _)
    (encryptSpkms_walk hP (fun _ _ => hmodify _) (writeCryptedDescriptorKey_walk hP hdb) _)
    (encryptQuantumKeysForWallet_walk hP (fun _ => hdb _) (fun _ _ => hmodify _) _)
    (encryptWalletMnemonicForWallet_walk hP (fun _ => hdb _) (fun _ => hmodify _) _) (hdb _)

theorem checkDecryptionKeys_walk (hthrow : ∀ e, P Bool (throw e)) (hspkm : ∀ id f, P _ (updateSpkm id f))
    (masterKey : Bytes) (spkms : List DescriptorScriptPubKeyMan) :
    P _ (checkDecryptionKeys env masterKey spkms) := by
  induction spkms with
  | nil => exact hP.pure _
  | cons spkm spkms ih =>
    refine hP.bind (hP.ite (hP.pure _) ?_) fun _ => hP.ite ih (hP.pure _)
    refine hP.ite (hthrow _) (hP.ite (hP.pure _) ?_)
    exact hP.bind (hspkm _ _) fun _ => hP.pure _

section
variable (hnext : P _ nextOutcome) (hkeys : ∀ f, KeyChange f → P _ (modifyWallet f))

include hnext in
theorem deriveQuantumManagerForKey_walk (master : CExtKey) (ref : QuantumKeyRef) :
    P _ (deriveQuantumManagerForKey env master ref) :=
  hP.bind hnext fun _ => hP.pure _

include hnext in
theorem deriveFromRoot_walk (ref : QuantumKeyRef) : P _ (deriveFromRoot env ref) := by
  refine hP.get (fun _ _ => rfl) fun w => ?_
  cases tryGetTaprootDescriptorRootExtKey env w.wallet with
  | none => exact hP.pure _
  | some master => exact deriveQuantumManagerForKey_walk hP hnext master ref

include hnext in
theorem loadQuantumManagerForReceiveIndex_walk (receiveIndex : Nat) :
    P _ (loadQuantumManagerForReceiveIndex env receiveIndex) := by
  refine hP.get (fun _ _ => rfl) fun w => ?_
  cases w.db.readQuantum (.indexState receiveIndex) with
  | some packed => exact hP.pure _
  | none =>
    cases if receiveIndex = 0 then w.db.readQuantum .state else none with
    | some legacy => exact hP.pure _
    | none => exact deriveFromRoot_walk hP hnext _

include hnext in
theorem loadQuantumManagerForKey_walk (ref : QuantumKeyRef) : P _ (loadQuantumManagerForKey env ref) := by
  refine hP.ite (hP.get (fun _ _ => rfl) fun w => ?_) (loadQuantumManagerForReceiveIndex_walk hP hnext _)
  cases w.db.readQuantum (.changeIndexState ref.index) with
  | some packed => exact hP.pure _
  | none => exact deriveFromRoot_walk hP hnext _

include hkeys in
theorem applyQuantumStateFromPackedBlob_walk (raw : Bytes) : P _ (applyQuantumStateFromPackedBlob raw) := by
  simp only [applyQuantumStateFromPackedBlob]
  cases unpackQuantumDbRecord raw with
  | none => exact hP.pure _
  | some r =>
    refine hP.bind (hkeys _ fun _ => ⟨_, _, _, _, _, _, rfl⟩) fun _ => hP.get (fun _ _ => rfl) fun w => ?_
    exact hP.ite (hP.pure _) (hP.pure _)

include hkeys in
theorem readStoredQuantumState_walk : P _ readStoredQuantumState := by
  refine hP.get (fun _ _ => rfl) fun w => ?_
  cases w.db.readQuantum .state with
  | none => exact hP.bind (hkeys _ fun _ => ⟨_, _, _, _, _, _, rfl⟩) fun _ => hP.pure _
  | some raw => exact applyQuantumStateFromPackedBlob_walk hP hkeys raw

include hkeys in
theorem tryLoadQuantumManagerAfterUnlock_walk : P _ (tryLoadQuantumManagerAfterUnlock env) := by
  refine hP.bind (hkeys _ fun _ => ⟨_, _, _, _, _, _, rfl⟩) fun _ => hP.get (fun _ _ => rfl) fun w => ?_
  exact hP.ite (hP.pure _) (hP.bind (hkeys _ fun _ => ⟨_, _, _, _, _, _, rfl⟩) fun _ => hP.pure _)

variable (hwrite : ∀ key packed, P _ (dbWrite (WalletDb.writeQuantum key packed)))
include hnext hkeys hwrite

theorem persistQuantumKeyMaterialFromHdMaster_walk (masterKey : CExtKey) (overwriteExisting : Bool) :
    P _ (persistQuantumKeyMaterialFromHdMaster env masterKey overwriteExisting) := by
  refine hP.get (fun _ _ => rfl) fun w => hP.ite (hP.pure _) ?_
  refine hP.bind (deriveQuantumManagerForKey_walk hP hnext _ _) fun mgr => ?_
  cases mgr with
  | none => exact hP.pure _
  | some mgr =>
    dsimp only
    cases programFromManager env mgr with
    | none => exact hP.pure _
    | some program =>
      cases mgr.serializeDualKeys with
      | none => exact hP.pure _
      | some plain =>
        dsimp only
        cases sealPayload env w.wallet plain with
        | none => exact hP.pure _
        | some payload =>
          refine hP.bind (hwrite _ _) fun _ => hP.ite ?_ (hP.pure _)
          refine hP.bind (hwrite _ _) fun _ => hP.ite ?_ (hP.pure _)
          exact hP.bind (hkeys _ fun _ => ⟨_, _, _, _, _, _, rfl⟩) fun _ => hP.pure _

theorem maybeUpgradeQuantumStateToHdOrigin_walk : P _ (maybeUpgradeQuantumStateToHdOrigin env) := by
  refine hP.get (fun _ _ => rfl) fun w => hP.ite (hP.pure _) ?_
  cases w.wallet.quantumProgramBytes with
  | none => exact hP.pure _
  | some program =>
    cases tryGetTaprootDescriptorRootExtKey env w.wallet with
    | none => exact hP.pure _
    | some master =>
      refine hP.bind (hP.bind (deriveQuantumManagerForKey_walk hP hnext _ _) fun _ => hP.pure _) fun derived => ?_
      cases derived with
      | none => exact hP.pure _
      | some derived =>
        exact hP.ite (hP.pure _) (persistQuantumKeyMaterialFromHdMaster_walk hP hnext hkeys hwrite _ _)
end
end

end Byze
