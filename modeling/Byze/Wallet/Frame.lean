import Byze.Wallet.Keeps

/-! The parts of the wallet's code that deal with key records leave everything
else of the wallet alone. -/

namespace Byze
open StateWp

/-- What a wallet is apart from its key records and their copies in memory. -/
def World.rest {Key : Type} (w : World Key) : WalletDb × CWallet Key :=
  ({ w.db with
      quantum := fun _ => none
      quantumChangeBase := fun _ => none
      flags := ⟨false, false⟩ },
    { w.wallet with
      walletFlags := ⟨false, false⟩
      quantumProgramBytes := none
      quantumSecretStorage := []
      quantumSecretIsEncrypted := false
      quantumManager := none
      quantumBlobFormat := quantumPackV2
      quantumKeyOrigin := 0
      quantumChangePrograms := fun _ => none
      quantumChangeBase := fun _ => none })

abbrev KeepsRest {Key : Type} : World Key → World Key → Prop := Leaves World.rest

instance {Key : Type} : HidesOutcomes (@World.rest Key) := ⟨fun _ => rfl⟩

/-- What the bookkeeping of the change key space leaves alone. -/
def World.aside {Key : Type} (w : World Key) : KeyState Key × WalletDb × CWallet Key := (w.keyState, w.rest)

instance {Key : Type} : HidesOutcomes (@World.aside Key) := ⟨fun _ => rfl⟩

/-- The relations that storing the keys of indexes goes along. -/
structure RecordSteps {Key : Type} (env : WalletEnv Key) (R : World Key → World Key → Prop) : Prop where
  aside : ∀ w w', Leaves World.aside w w' → R w w'
  store : ∀ ref, Along R (do
    match ← loadQuantumManagerForKey env ref with
    | none => pure false
    | some mgr => persistQuantumManagerForKey env ref mgr)

section
variable {Key : Type} {env : WalletEnv Key} {w w' : World Key}

theorem quantumChangeBaseFor_aside (id : Uint256) :
    Along (Leaves World.aside) (quantumChangeBaseFor id : WalletM Key (Option Int)) := by
  refine Along.get.bind fun w => .ite (.pure _) ?_
  cases w.wallet.quantumChangeBase id with
  | some base => exact .pure _
  | none =>
    cases w.db.quantumChangeBase id with
    | none => exact .pure _
    | some base => exact .ite (.bind (modifyWallet_leaves fun _ => rfl) fun _ => .pure _) (.pure _)

theorem setWalletFlags_aside (f : WalletFlags → WalletFlags) :
    Along (Leaves World.aside) (setWalletFlags f : WalletM Key PUnit) := by
  refine .bind (modifyWallet_leaves fun _ => rfl) fun _ => Along.get.bind fun w => ?_
  exact .bind (dbWrite_leaves fun _ => rfl) fun _ => .ite (.pure _) (.throw _)

section
variable {R : World Key → World Key → Prop} [Std.Refl R] [IsTrans (World Key) R] (hR : RecordSteps env R)
include hR

theorem ensureQuantumChangeIndexState_along (changeIndex : Nat) :
    Along R (ensureQuantumChangeIndexState env changeIndex) := by
  refine Along.get.bind fun w => ?_
  cases readCachedQuantumProgram w.db ⟨true, changeIndex⟩ with
  | some program => exact .bind (.mono (modifyWallet_leaves fun _ => rfl) hR.aside) fun _ => .pure _
  | none => exact hR.store _

theorem ensureQuantumIndexStateForReceiveIndex_along (receiveIndex : Nat) :
    Along R (ensureQuantumIndexStateForReceiveIndex env receiveIndex) :=
  Along.get.bind fun _ => .ite (.pure _) (hR.store ⟨false, receiveIndex⟩)

theorem ensureQuantumStateForSpkmIndex_along (id : Uint256) (index : Int) :
    Along R (ensureQuantumStateForSpkmIndex env id index) := by
  refine .ite (.pure _) (((quantumChangeBaseFor_aside id).mono hR.aside).bind fun base => ?_)
  cases base with
  | none => exact ensureQuantumIndexStateForReceiveIndex_along hR _
  | some base =>
    refine .ite (ensureQuantumIndexStateForReceiveIndex_along hR _) ?_
    refine Along.get.bind fun w => .ite (ensureQuantumChangeIndexState_along hR _) ?_
    refine .bind (.mono (dbWrite_leaves fun _ => rfl) hR.aside) fun _ => .ite ?_ (.pure _)
    exact ((setWalletFlags_aside _).mono hR.aside).bind fun _ => ensureQuantumChangeIndexState_along hR _

omit hR in
theorem ensureEach_along {ensure : Nat → WalletM Key Bool} (h : ∀ n, Along R (ensure n)) (n : Nat) :
    Along R (ensureEach ensure n) := by
  induction n with
  | zero => exact .pure _
  | succ n ih => exact ih.bind fun _ => (h n).bind fun _ => .pure _

theorem repairQuantumReceiveIndexStates_along : Along R (repairQuantumReceiveIndexStates env) := by
  refine Along.get.bind fun w => ?_
  cases w.wallet.getScriptPubKeyMan false with
  | none => exact .pure _
  | some spkm => exact ensureEach_along (ensureQuantumIndexStateForReceiveIndex_along hR) _

theorem loadQuantumChangeIndexStates_along : Along R (loadQuantumChangeIndexStates env) := by
  refine .bind (.mono (modifyWallet_leaves fun _ => rfl) hR.aside) fun _ => Along.get.bind fun w => ?_
  cases w.wallet.getScriptPubKeyMan true with
  | none => exact .pure _
  | some spkm =>
    dsimp only
    cases (w.db.quantumChangeBase spkm.getID).filter (0 ≤ ·) with
    | none => exact .ite (.pure _) (.mono (modifyWallet_leaves fun _ => rfl) hR.aside)
    | some base =>
      refine .bind (.mono (modifyWallet_leaves fun _ => rfl) hR.aside) fun _ => ?_
      exact ensureEach_along (ensureQuantumChangeIndexState_along hR) _
end

theorem KeyChange.keepsRest (f : CWallet Key → CWallet Key) (hf : KeyChange f) : Along KeepsRest (modifyWallet f) := by
  refine modifyWallet_leaves fun w => ?_
  obtain ⟨_, _, _, _, _, _, h⟩ := hf w.wallet
  simp [World.rest, World.modifyWallet, h]

theorem writeQuantum_keepsRest (key : QuantumDbKey) (packed : Bytes) :
    Along KeepsRest (dbWrite (WalletDb.writeQuantum key packed) : WalletM Key Bool) :=
  dbWrite_leaves fun _ => rfl

theorem persistQuantumManagerPacked_keepsRest (receiveIndex : Nat) (packed : Bytes) :
    Along KeepsRest (persistQuantumManagerPacked receiveIndex packed : WalletM Key Bool) :=
  (writeQuantum_keepsRest _ _).bind fun _ =>
    .ite (.ite (writeQuantum_keepsRest _ _) (.pure _)) (.pure _)

theorem persistQuantumKeyPacked_keepsRest (ref : QuantumKeyRef) (enc : Bool) (origin : UInt8)
    (program : Uint256) (payload : Bytes) :
    Along KeepsRest (persistQuantumKeyPacked ref enc origin program payload : WalletM Key Bool) :=
  .ite (writeQuantum_keepsRest _ _) (persistQuantumManagerPacked_keepsRest _ _)

theorem persistQuantumManagerForKey_keepsRest (ref : QuantumKeyRef) (mgr : QuantumSafeManager Key) :
    Along KeepsRest (persistQuantumManagerForKey env ref mgr) := by
  refine Along.get.bind fun w => ?_
  cases mgr.serializeDualKeys with
  | none => exact .pure _
  | some plain =>
    dsimp only
    cases sealPayload env w.wallet plain with
    | none => exact .pure _
    | some payload =>
      cases programFromManager env mgr with
      | none => exact .pure _
      | some program =>
        refine (persistQuantumKeyPacked_keepsRest _ _ _ _ _).bind fun _ =>
          .ite (.bind (modifyWallet_leaves fun w => ?_) fun _ => .pure _) (.pure _)
        split
        · rfl
        · split <;> rfl

theorem keepsRest_recordSteps : RecordSteps env KeepsRest where
  aside _ _ h := ⟨congrArg Prod.snd h.same, h.later⟩
  store ref := by
    refine .bind (loadQuantumManagerForKey_walk (Walk.along _) nextOutcome_leaves _) fun mgr => ?_
    cases mgr with
    | none => exact .pure _
    | some mgr => exact persistQuantumManagerForKey_keepsRest _ mgr

theorem persistQuantumKeyMaterialFromHdMaster_keepsRest (masterKey : CExtKey) (overwriteExisting : Bool) :
    Along KeepsRest (persistQuantumKeyMaterialFromHdMaster env masterKey overwriteExisting) :=
  persistQuantumKeyMaterialFromHdMaster_walk (Walk.along _) nextOutcome_leaves KeyChange.keepsRest
    writeQuantum_keepsRest masterKey overwriteExisting

theorem maybeUpgradeQuantumStateToHdOrigin_keepsRest :
    Along KeepsRest (maybeUpgradeQuantumStateToHdOrigin env) :=
  maybeUpgradeQuantumStateToHdOrigin_walk (Walk.along _) nextOutcome_leaves KeyChange.keepsRest
    writeQuantum_keepsRest

theorem runWithinTxn_keepsRest {func : WalletM Key Bool} (hfunc : Along KeepsRest func) :
    Along KeepsRest (runWithinTxn func) := by
  refine runWithinTxn_along (fun s t h => ?_) (dbWrite_leaves fun _ => rfl) hfunc
  have hwallet : t.rest.2 = s.rest.2 := congrArg Prod.snd h.same
  exact ⟨Prod.ext rfl hwallet, h.later⟩

theorem ensureQuantumKeysForReceive_keepsRest : Along KeepsRest (ensureQuantumKeysForReceive env) := by
  refine Along.get.bind fun w => .ite (.pure _) (.ite (.pure _) ?_)
  cases tryGetTaprootDescriptorRootExtKey env w.wallet with
  | none => exact .pure _
  | some master =>
    refine (runWithinTxn_keepsRest (persistQuantumKeyMaterialFromHdMaster_keepsRest _ _)).bind
      fun _ => .ite (Along.get.bind fun _ => .pure _) (.pure _)

theorem readStoredQuantumState_keepsRest : Along KeepsRest (readStoredQuantumState : WalletM Key DBErrors) :=
  readStoredQuantumState_walk (Walk.along _) KeyChange.keepsRest

theorem tryLoadQuantumManagerAfterUnlock_keepsRest : Along KeepsRest (tryLoadQuantumManagerAfterUnlock env) :=
  tryLoadQuantumManagerAfterUnlock_walk (Walk.along _) KeyChange.keepsRest

theorem upgradeIfPlain_keepsRest : Along KeepsRest (upgradeIfPlain env) :=
  Along.get.bind fun _ =>
    .ite maybeUpgradeQuantumStateToHdOrigin_keepsRest (.pure _)

theorem loadQuantumRecordsFromDatabase_keepsRest : Along KeepsRest (loadQuantumRecordsFromDatabase env) := by
  refine .bind (modifyWallet_leaves fun _ => rfl) fun _ => Along.get.bind fun w => ?_
  cases w.db.readQuantum .state with
  | none => exact (loadQuantumChangeIndexStates_along keepsRest_recordSteps).bind fun _ => .pure _
  | some raw =>
    refine .bind (applyQuantumStateFromPackedBlob_walk (Walk.along _) KeyChange.keepsRest raw) fun err => ?_
    refine .ite (.pure _) (upgradeIfPlain_keepsRest.bind fun _ => ?_)
    refine (repairQuantumReceiveIndexStates_along keepsRest_recordSteps).bind fun _ => ?_
    exact (loadQuantumChangeIndexStates_along keepsRest_recordSteps).bind fun _ => .pure _
end

end Byze
