import Byze.Wallet.Frame

/-! The programs that a wallet hands out: where the program of an index comes
from, and when it is the one that the root of the descriptor derives. -/

namespace Byze
open StateWp

section
variable {Key : Type} (env : WalletEnv Key)

def derivedProgram (root : CExtKey) (ref : QuantumKeyRef) : Uint256 :=
  env.hashes.sha256 ((env.lib.stflPublicKey (xmssKeyOfIkm env.hashes env.lib (quantumIkm root ref))).val ++
      (env.lib.sigKeypair (sphSeed env.hashes (quantumIkm root ref))).1.val)

/-- The program of a key as the wallet finds it: stored, or else derived from
the root of the receive descriptor. -/
def ProgramAt (w : World Key) (ref : QuantumKeyRef) (program : Uint256) : Prop :=
  readCachedQuantumProgram w.db ref = some program ∨ readCachedQuantumProgram w.db ref = none ∧
      ∃ root, tryGetTaprootDescriptorRootExtKey env w.wallet = some root ∧
        program = derivedProgram env root ref

def World.refAt (w : World Key) (id : Uint256) (index : Int) : QuantumKeyRef :=
  match w.changeBase id with
  | none => ⟨false, index.toNat⟩
  | some base => if index < base then ⟨false, index.toNat⟩ else ⟨true, (index - base).toNat⟩

def Descriptor.RootIs (d : Descriptor) (root : CExtKey) : Prop :=
  ∀ keys root', d.rootExtKey keys = some root' → root' = root

variable {env} {w w' : World Key}

theorem programFromManager_of_generate {root : CExtKey} {ref : QuantumKeyRef} {o : KeygenOutcome}
    (ho : (QuantumSafeManager.empty.generateDualKeysFromEntropyIkm env.hashes env.lib
      (quantumIkm root ref) o).1 = true) :
    programFromManager env (QuantumSafeManager.empty.generateDualKeysFromEntropyIkm env.hashes
      env.lib (quantumIkm root ref) o).2 = some (derivedProgram env root ref) := by
  obtain ⟨hx, hs⟩ := (QuantumSafeManager.generate_fst _ _ _ _ _).mp ho
  have hne : ∀ s : XmssSecret Key, (env.lib.stflSerialize s).isEmpty = false := by
    simp [env.lib.stflSerialize_ne_nil]
  have hbundle : (QuantumSafeManager.empty.generateDualKeysFromEntropyIkm env.hashes
      env.lib (quantumIkm root ref) o).2.getDualPublicKeyBundle =
      (env.lib.stflPublicKey (xmssKeyOfIkm env.hashes env.lib (quantumIkm root ref))).val ++
        (env.lib.sigKeypair (sphSeed env.hashes (quantumIkm root ref))).1.val := by
    simp only [QuantumSafeManager.generateDualKeysFromEntropyIkm, hx, hs,
      XmssPrivateKey.initializeFromEntropy, hne]
    rfl
  have hbundle_ne : ¬ (env.lib.stflPublicKey (xmssKeyOfIkm env.hashes env.lib (quantumIkm root ref))).val ++
        (env.lib.sigKeypair (sphSeed env.hashes (quantumIkm root ref))).1.val = [] := by
    intro hnil
    have hlen := congrArg List.length hnil
    rw [List.length_append, (env.lib.stflPublicKey _).property] at hlen
    simp [xmssPubkeySize] at hlen
  rw [programFromManager, hbundle, if_neg hbundle_ne]
  rfl

theorem deriveQuantumProgramForKey_eq (root : CExtKey) (ref : QuantumKeyRef) :
    wp (deriveQuantumProgramForKey env root ref)
      (fun program w' => Keeps w w' ∧ ∀ p, program = some p → p = derivedProgram env root ref)
      (fun _ _ => False) w := by
  refine ⟨nextOutcome_leaves w, fun p hp => ?_⟩
  obtain ⟨mgr, hmgr, hprogram⟩ := Option.bind_eq_some_iff.mp hp
  obtain ⟨ho, hmgr⟩ := Option.ite_none_right_eq_some.mp hmgr
  obtain rfl := Option.some.inj hmgr
  rw [programFromManager_of_generate ho] at hprogram
  exact (Option.some.inj hprogram).symm

theorem findSpkm_map_core (id : Uint256) : (w.wallet.findSpkm id).map DescriptorScriptPubKeyMan.core =
      w.core.spkms.find? fun spkm => spkm.descriptor.id = id := by
  simp only [World.core, List.find?_map]
  rfl

variable {spkm spkm' : DescriptorScriptPubKeyMan}

theorem exportTaprootDescriptorRootExtKey_congr (hmap : w'.wallet.mapMasterKeys = w.wallet.mapMasterKeys)
    (hkey : w'.wallet.vMasterKey = w.wallet.vMasterKey) (hcore : spkm'.core = spkm.core) :
    exportTaprootDescriptorRootExtKey env w'.wallet spkm' =
      exportTaprootDescriptorRootExtKey env w.wallet spkm := by
  simp only [DescriptorScriptPubKeyMan.core, SpkmCore.mk.injEq] at hcore
  simp only [exportTaprootDescriptorRootExtKey, DescriptorScriptPubKeyMan.havePrivateKeys,
    DescriptorScriptPubKeyMan.getKeys, CWallet.isLocked, CWallet.isCrypted, hmap, hkey, hcore]
  rfl

theorem Keeps.getScriptPubKeyMan_map_core (h : Keeps w w') (internal : Bool) :
    (w'.wallet.getScriptPubKeyMan internal).map DescriptorScriptPubKeyMan.core =
      (w.wallet.getScriptPubKeyMan internal).map DescriptorScriptPubKeyMan.core := by
  have hext : w'.wallet.externalSpkManager = w.wallet.externalSpkManager :=
    congrArg (fun c => c.wallet.externalSpkManager) h.same
  have hint : w'.wallet.internalSpkManager = w.wallet.internalSpkManager :=
    congrArg (fun c => c.wallet.internalSpkManager) h.same
  simp only [CWallet.getScriptPubKeyMan, hext, hint]
  cases (if internal = true then w.wallet.internalSpkManager else w.wallet.externalSpkManager) with
  | none => rfl
  | some id =>
    simp [findSpkm_map_core, h.same]

theorem Keeps.tryGetTaprootDescriptorRootExtKey (h : Keeps w w') :
    tryGetTaprootDescriptorRootExtKey env w'.wallet =
      tryGetTaprootDescriptorRootExtKey env w.wallet := by
  have hspkm := h.getScriptPubKeyMan_map_core false
  have hmap : w'.wallet.mapMasterKeys = w.wallet.mapMasterKeys := congrArg (fun c => c.wallet.mapMasterKeys) h.same
  have hkey : w'.wallet.vMasterKey = w.wallet.vMasterKey := congrArg (fun c => c.wallet.vMasterKey) h.same
  simp only [Byze.tryGetTaprootDescriptorRootExtKey]
  cases hs : w.wallet.getScriptPubKeyMan false with
  | none =>
    rw [hs, Option.map_none, Option.map_eq_none_iff] at hspkm
    rw [hspkm]
    rfl
  | some spkm =>
    rw [hs, Option.map_some, Option.map_eq_some_iff] at hspkm
    obtain ⟨spkm', hs', hcore⟩ := hspkm
    rw [hs']
    exact exportTaprootDescriptorRootExtKey_congr hmap hkey hcore

theorem Keeps.readCachedQuantumProgram (h : Keeps w w') (ref : QuantumKeyRef) :
    readCachedQuantumProgram w'.db ref = readCachedQuantumProgram w.db ref := by
  have hq : w'.db.quantum = w.db.quantum := congrArg (fun c => c.db.quantum) h.same
  simp [Byze.readCachedQuantumProgram, WalletDb.readQuantum, hq]

theorem Keeps.programAt_iff (h : Keeps w w') {ref : QuantumKeyRef} {program : Uint256} :
    ProgramAt env w' ref program ↔ ProgramAt env w ref program := by
  simp [ProgramAt, h.readCachedQuantumProgram, h.tryGetTaprootDescriptorRootExtKey]

theorem Keeps.refAt (h : Keeps w w') (id : Uint256) (index : Int) : w'.refAt id index = w.refAt id index := by
  have hb : w'.changeBase = w.changeBase := congrArg (fun c => c.wallet.quantumChangeBase) h.same
  simp [World.refAt, hb]

theorem cachedOrDerivedProgram_programAt (ref : QuantumKeyRef) : wp (cachedOrDerivedProgram env ref)
      (fun program w' => Keeps w w' ∧ ∀ p, program = some p → ProgramAt env w ref p)
      (fun _ w' => Keeps w w') w := by
  simp only [cachedOrDerivedProgram, wp_bind, wp_get]
  cases hc : readCachedQuantumProgram w.db ref with
  | some program =>
    refine ⟨refl_of Keeps w, fun p hp => Or.inl ?_⟩
    rw [hc, ← hp]
  | none =>
    cases hr : tryGetTaprootDescriptorRootExtKey env w.wallet with
    | none => exact ⟨refl_of Keeps w, by simp⟩
    | some root =>
      refine wp_mono (deriveQuantumProgramForKey_eq root ref) ?_ fun _ _ h => h.elim
      rintro program w' ⟨hk, hp⟩
      exact ⟨hk, fun p h => Or.inr ⟨hc, root, hr, hp p h⟩⟩

theorem getQuantumTaprootForSpkmIndex_programAt (id : Uint256) (index : Int) :
    wp (getQuantumTaprootForSpkmIndex env id index) (fun program w' => Keeps w w' ∧
        ∀ p, program = some p → 0 ≤ index ∧ ProgramAt env w (w.refAt id index) p)
      (fun _ w' => Keeps w w') w := by
  refine wp_ite (fun _ => ⟨refl_of Keeps w, by simp⟩) fun hidx => ?_
  have hpos : 0 ≤ index := by omega
  simp only [wp_bind]
  refine wp_mono (quantumChangeBaseFor_eq id) ?_ fun _ _ h => h.elim
  rintro _ w₁ ⟨rfl, hk₁⟩
  have hreceive (href : w.refAt id index = ⟨false, index.toNat⟩) :
      wp (getQuantumTaprootAtIndex env index.toNat) (fun program w' => Keeps w w' ∧
          ∀ p, program = some p → 0 ≤ index ∧ ProgramAt env w (w.refAt id index) p)
        (fun _ w' => Keeps w w') w₁ := by
    refine wp_mono (cachedOrDerivedProgram_programAt _) ?_ fun _ _ hk => trans_of Keeps hk₁ hk
    rintro program w₂ ⟨hk₂, hp⟩
    refine ⟨trans_of Keeps hk₁ hk₂, fun p h => ⟨hpos, ?_⟩⟩
    rw [href]
    exact hk₁.programAt_iff.mp (hp p h)
  cases hb : w.changeBase id with
  | none => exact hreceive (by simp [World.refAt, hb])
  | some base =>
    refine wp_ite (fun hlt => hreceive (by simp [World.refAt, hb, hlt])) fun hlt => ?_
    have href : w.refAt id index = ⟨true, (index - base).toNat⟩ := by simp [World.refAt, hb, hlt]
    simp only [wp_bind]
    refine wp_mono (cachedOrDerivedProgram_programAt _) ?_ fun _ _ hk => trans_of Keeps hk₁ hk
    rintro program w₂ ⟨hk₂, hp⟩
    have hk : Keeps w w₂ := trans_of Keeps hk₁ hk₂
    cases program with
    | none => exact ⟨hk, by simp⟩
    | some program =>
      simp only [wp_bind]
      refine (rememberChangeProgram_keeps _ _).wp_of (fun _ w₃ hk₃ => ?_)
        fun _ _ hk₃ => trans_of Keeps hk hk₃
      refine ⟨trans_of Keeps hk hk₃, fun p h => ⟨hpos, ?_⟩⟩
      rw [href]
      exact hk₁.programAt_iff.mp (hp p h)

/-- What a successful hand-out says about the state before it. -/
def HandsOut (env : WalletEnv Key) (internal : Bool) (w : World Key) (program : Uint256) : Prop :=
  ∃ spkm, w.wallet.getScriptPubKeyMan internal = some spkm ∧ 0 ≤ spkm.walletDescriptor.nextIndex ∧
    ProgramAt env w (w.refAt spkm.getID spkm.walletDescriptor.nextIndex) program

theorem takeDestination_programAt (id : Uint256) : wp (takeDestination env id)
      (fun r _ => ∀ program, r = .ok program → ∃ spkm, w.wallet.findSpkm id = some spkm ∧
        0 ≤ spkm.walletDescriptor.nextIndex ∧
        ProgramAt env w (w.refAt id spkm.walletDescriptor.nextIndex) program)
      (fun _ _ => True) w := by
  simp only [takeDestination, wp_bind, wp_get]
  cases hs : w.wallet.findSpkm id with
  | none => simp
  | some spkm =>
    dsimp only
    cases spkm.walletDescriptor.descriptor.expandFromCache spkm.walletDescriptor.cache
      spkm.walletDescriptor.nextIndex with
    | none => simp
    | some scripts =>
      simp only [wp_bind]
      refine wp_mono (getQuantumTaprootForSpkmIndex_programAt _ _) ?_ fun _ _ _ => trivial
      rintro program w₁ ⟨-, hp⟩
      cases program with
      | none => simp
      | some program =>
        obtain ⟨hpos, hat⟩ := hp program rfl
        simp only [updateSpkm, modifyWallet, writeDescriptor, wp_bind, wp_modify]
        refine wp_dbWrite ?_ ?_ trivial
        all_goals
          refine (ensureQuantumStateForSpkmIndex_along keepsRest_recordSteps _ _).wp_of (fun _ _ _ => ?_)
            fun _ _ _ => trivial
          refine wp_ite (fun _ p hp => ?_) fun _ => by simp
          obtain rfl := Except.ok.inj hp
          exact ⟨spkm, rfl, hpos, hat⟩

theorem CWallet.getID_of_findSpkm {wallet : CWallet Key} {id : Uint256}
    (h : wallet.findSpkm id = some spkm) : spkm.getID = id := by
  simpa using List.find?_some h

theorem CWallet.findSpkm_of_getScriptPubKeyMan {wallet : CWallet Key} {internal : Bool}
    (h : wallet.getScriptPubKeyMan internal = some spkm) :
    (if internal then wallet.internalSpkManager else wallet.externalSpkManager) = some spkm.getID ∧
      wallet.findSpkm spkm.getID = some spkm := by
  obtain ⟨id, hid, hfind⟩ := Option.bind_eq_some_iff.mp h
  obtain rfl := CWallet.getID_of_findSpkm hfind
  exact ⟨hid, hfind⟩

theorem Keeps.findSpkm_core (h : Keeps w w') {id : Uint256}
    (hs : w.wallet.findSpkm id = some spkm) (hs' : w'.wallet.findSpkm id = some spkm') :
    spkm'.core = spkm.core := by
  have hfind : (w'.wallet.findSpkm id).map DescriptorScriptPubKeyMan.core =
      (w.wallet.findSpkm id).map DescriptorScriptPubKeyMan.core := by
    simp [findSpkm_map_core, h.same]
  rw [hs, hs'] at hfind
  exact Option.some.inj hfind

theorem getNewDestination_handsOut (internal : Bool) : wp (getNewDestination env internal)
      (fun r _ => ∀ program, r = .ok program → HandsOut env internal w program)
      (fun _ _ => True) w := by
  simp only [getNewDestination, wp_bind, wp_get]
  cases hs : w.wallet.getScriptPubKeyMan internal with
  | none => simp
  | some spkm =>
    obtain ⟨-, hfind⟩ := CWallet.findSpkm_of_getScriptPubKeyMan hs
    -- The top-up before it leaves alone what the program depends on.
    have htake : ∀ w₁, Keeps w w₁ → wp (takeDestination env spkm.getID)
        (fun r _ => ∀ program, r = .ok program → HandsOut env internal w program)
        (fun _ _ => True) w₁ := by
      intro w₁ hk
      refine wp_mono (takeDestination_programAt _) ?_ fun _ _ _ => trivial
      intro r _ hr program hok
      obtain ⟨spkm₁, hs₁, hpos, hat⟩ := hr program hok
      have hnext : spkm₁.walletDescriptor.nextIndex = spkm.walletDescriptor.nextIndex :=
        congrArg SpkmCore.nextIndex (hk.findSpkm_core hfind hs₁)
      rw [hnext] at hpos hat
      rw [hk.refAt] at hat
      exact ⟨spkm, hs, hpos, hk.programAt_iff.mp hat⟩
    refine wp_ite (fun _ => by simp) fun _ => ?_
    cases spkm.walletDescriptor.descriptor.outputType with
    | none => trivial
    | some type =>
      refine wp_ite (fun _ => trivial) fun _ => ?_
      refine (topUp_keeps _ _).wp_bind_of (fun _ w₁ hk₁ => ?_) fun _ _ _ => trivial
      simp only [wp_bind, wp_get]
      cases hs₁ : w₁.wallet.findSpkm spkm.getID with
      | none => simp
      | some spkm₁ =>
        have hid : spkm₁.getID = spkm.getID := CWallet.getID_of_findSpkm hs₁
        refine wp_ite (fun _ => ?_) fun _ => hid ▸ htake w₁ hk₁
        refine (topUp_keeps _ _).wp_bind_of (fun _ w₂ hk₂ => ?_) fun _ _ _ => trivial
        exact wp_ite (fun _ => hid ▸ htake w₂ (trans_of Keeps hk₁ hk₂)) fun _ => by simp

theorem readCachedQuantumProgram_of_packV2 {db : WalletDb} {index : Nat} (encrypted : Bool)
    (origin : UInt8) {program : Uint256} (payload : Bytes)
    (h : db.quantum (.indexState index) = some (packQuantumDbRecordV2 encrypted origin program payload)) :
    readCachedQuantumProgram db ⟨false, index⟩ = some program := by
  have hne : packQuantumDbRecordV2 encrypted origin program payload ≠ [] := List.cons_ne_nil _ _
  simp [readCachedQuantumProgram, WalletDb.readQuantum, h, hne, unpack_packQuantumDbRecordV2]

theorem persistQuantumKeyMaterialFromHdMaster_new (root : CExtKey) (hstate : w.db.readQuantum .state = none) :
    wp (persistQuantumKeyMaterialFromHdMaster env root false) (fun ok w' => (∀ index, index ≠ 0 →
          w'.db.quantum (.indexState index) = w.db.quantum (.indexState index)) ∧
        (ok = true → readCachedQuantumProgram w'.db ⟨false, 0⟩ = some (derivedProgram env root ⟨false, 0⟩)))
      (fun _ _ => True) w := by
  simp only [persistQuantumKeyMaterialFromHdMaster, deriveQuantumManagerForKey, wp_bind, wp_get, hstate]
  simp only [wp_bind, wp_nextOutcome, Option.isSome_none, Bool.and_false, Bool.false_eq_true,
    if_false, wp_pure]
  split
  next => exact ⟨fun _ _ => rfl, by simp⟩
  next mgr hmgr =>
    obtain ⟨ho, hmgr⟩ := Option.ite_none_right_eq_some.mp hmgr
    obtain rfl := Option.some.inj hmgr
    rw [programFromManager_of_generate ho]
    split
    next program plain hp hplain =>
      obtain rfl := Option.some.inj hp
      cases sealPayload env w.wallet plain with
      | none => exact ⟨fun _ _ => rfl, by simp⟩
      | some payload =>
        simp only [wp_bind]
        refine wp_dbWrite ?_ ⟨fun _ _ => rfl, by simp⟩ trivial
        simp only [if_true, wp_bind]
        refine wp_dbWrite ?_ ?_ trivial
        · refine ⟨fun index hindex => ?_, fun _ => ?_⟩
          · simp [World.modifyDb, World.modifyWallet, WalletDb.writeQuantum, hindex]
          · refine readCachedQuantumProgram_of_packV2 w.wallet.encrypting quantumOriginHdMaster payload ?_
            simp [World.modifyDb, World.modifyWallet, WalletDb.writeQuantum]
        · refine ⟨fun index hindex => ?_, by simp⟩
          simp [World.modifyDb, WalletDb.writeQuantum]
    next => exact ⟨fun _ _ => rfl, by simp⟩

def MadeFirstKey (env : WalletEnv Key) (w w' : World Key) : Prop :=
  (∀ index, index ≠ 0 → w'.db.quantum (.indexState index) = w.db.quantum (.indexState index)) ∧
    ∃ root, tryGetTaprootDescriptorRootExtKey env w.wallet = some root ∧
      readCachedQuantumProgram w'.db ⟨false, 0⟩ = some (derivedProgram env root ⟨false, 0⟩)

theorem ensureQuantumKeysForReceive_programs : wp (ensureQuantumKeysForReceive env) (fun ok w' => ok = true →
        (w.wallet.quantumProgramBytes.isSome = true → w'.db.quantum = w.db.quantum) ∧
        (w.wallet.quantumProgramBytes = none → MadeFirstKey env w w'))
      (fun _ _ => True) w := by
  refine wp_ite (fun hsome _ => ?_) fun hnone => ?_
  · refine ⟨fun _ => rfl, fun hn => ?_⟩
    simp [hn] at hsome
  have hprogram : w.wallet.quantumProgramBytes = none := by simpa using hnone
  refine wp_ite (fun _ => by simp) fun _ => ?_
  cases hroot : tryGetTaprootDescriptorRootExtKey env w.wallet with
  | none => simp
  | some root =>
    simp only [runWithinTxn, wp_bind]
    refine wp_dbWrite ?_ (by simp) trivial
    simp only [if_true, wp_bind, wp_get, wp_restoringDb]
    cases hstate : w.db.readQuantum .state with
    | some packed =>
      -- With a state record nothing is made, and the wallet still has no keys in memory.
      have hread : (World.modifyDb id w.tail).db.readQuantum .state = some packed := hstate
      simp only [persistQuantumKeyMaterialFromHdMaster, wp_bind, wp_get, hread]
      refine wp_dbWrite ?_ ?_ trivial
      · simp [World.modifyDb, hprogram]
      · simp
    | none =>
      refine wp_mono (persistQuantumKeyMaterialFromHdMaster_new root hstate) ?_ fun _ _ _ => trivial
      rintro (_ | _) w₁ ⟨hkeep, hmade⟩
      · simp
      · refine wp_dbWrite ?_ (by simp) trivial
        intro _
        refine ⟨fun hsome => ?_, fun _ => ⟨hkeep, root, hroot, hmade rfl⟩⟩
        simp [hprogram] at hsome
end

end Byze
