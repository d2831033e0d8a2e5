import Byze.Wallet.KeyState
import Byze.Wallet.Walks

/-! The parts of the wallet's code that leave its quantum keys alone: the
keypool, flags, the pending record and everything that only reads. -/

namespace Byze
open StateWp

structure SpkmCore where
  descriptor : Descriptor
  mapKeys : List CKey
  mapCryptedKeys : List (Bytes × Bytes)
  nextIndex : Int

def DescriptorScriptPubKeyMan.core (spkm : DescriptorScriptPubKeyMan) : SpkmCore :=
  ⟨spkm.walletDescriptor.descriptor, spkm.mapKeys, spkm.mapCryptedKeys, spkm.walletDescriptor.nextIndex⟩

/-- The first index of a descriptor in the change key space, if it has one. -/
def World.changeBase {Key : Type} (w : World Key) (id : Uint256) : Option Int :=
  if w.wallet.internalSpkManager ≠ some id then none
  else
    match w.wallet.quantumChangeBase id with
    | some base => some base
    | none => (w.db.quantumChangeBase id).filter (0 ≤ ·)

structure WalletCore (Key : Type) where
  db : WalletDb
  wallet : CWallet Key
  spkms : List SpkmCore
  signedLeaves : List (Key × Nat)

/-- The parts of a wallet that its keypool has no business with: keys, records,
the phrase, which descriptors are active and where their key spaces begin. -/
def World.core {Key : Type} (w : World Key) : WalletCore Key where
  db := { w.db with
    quantumPending := none
    walletDescriptors := []
    descriptorCaches := fun _ => []
    descriptorKeys := []
    descriptorCKeys := []
    activeExternalSpk := none
    activeInternalSpk := none
    flags := ⟨false, false⟩ }
  wallet := { w.wallet with
    spkManagers := []
    cachedSpks := []
    walletFlags := ⟨false, false⟩
    quantumChangePrograms := fun _ => none
    quantumChangeBase := w.changeBase }
  spkms := w.wallet.spkManagers.map DescriptorScriptPubKeyMan.core
  signedLeaves := w.signedLeaves

def Later {Key : Type} (w w' : World Key) : Prop :=
  ∃ k, w'.outcomes = fun n => w.outcomes (n + k)

/-- What `view` shows of the wallet is left alone. -/
structure Leaves {Key α : Type} (view : World Key → α) (w w' : World Key) : Prop where
  same : view w' = view w
  later : Later w w'

/-- The outcomes of calls are not shown. -/
class HidesOutcomes {Key α : Type} (view : World Key → α) : Prop where
  tail : ∀ w, view w.tail = view w

abbrev Keeps {Key : Type} : World Key → World Key → Prop := Leaves World.core

instance {Key : Type} : HidesOutcomes (@World.core Key) := ⟨fun _ => rfl⟩

section
variable {Key : Type} {env : WalletEnv Key} {w w' : World Key}

theorem Later.refl (w : World Key) : Later w w := ⟨0, rfl⟩

theorem Later.trans {w'' : World Key} (h : Later w w') (h' : Later w' w'') : Later w w'' := by
  obtain ⟨k, hk⟩ := h
  obtain ⟨k', hk'⟩ := h'
  refine ⟨k' + k, ?_⟩
  funext n
  simp only [hk', hk, Nat.add_assoc]

section
variable {α : Type} {view : World Key → α}

instance : Std.Refl (Leaves view) := ⟨fun w => ⟨rfl, Later.refl w⟩⟩

instance : IsTrans (World Key) (Leaves view) :=
  ⟨fun _ _ _ h h' => ⟨h'.same.trans h.same, h.later.trans h'.later⟩⟩
end

variable {E : Abort → World Key → Prop} {f : WalletDb → WalletDb}

theorem wp_nextOutcome {Q : Outcome → World Key → Prop} : wp nextOutcome Q E w ↔ Q (w.outcomes 0) w.tail :=
  Iff.rfl

variable {Q : Bool → World Key → Prop}

theorem wp_dbCall {ends : Outcome → DbOutcome} (hok : Q true (w.tail.modifyDb f))
    (hfail : Q false w.tail) (hcrash : E .crash w.tail) :
    wp (dbCall ends f) Q E w := by
  simp only [dbCall, wp_bind, wp_nextOutcome]
  cases ends (w.outcomes 0) with
  | succeeds => exact hok
  | fails => exact hfail
  | crashes => exact hcrash

theorem wp_dbWrite (hok : Q true (w.tail.modifyDb f)) (hfail : Q false w.tail) (hcrash : E .crash w.tail) :
    wp (dbWrite f) Q E w := wp_dbCall hok hfail hcrash

theorem wp_restoringDb {α : Type} {db : WalletDb} {keep : α → Bool} {body : WalletM Key α}
    {Q : α → World Key → Prop} :
    wp (restoringDb db keep body) Q E w ↔
      wp body (fun a w' => Q a (if keep a then w' else { w' with db := db }))
        (fun e w' => E e { w' with db := db }) w := by
  have hrun : (restoringDb db keep body).run w = restoringDb db keep body w := rfl
  simp only [wp, hrun, restoringDb]
  rcases body.run w with ⟨_ | _, _⟩ <;> rfl

theorem wp_onAbort {α : Type} {cleanup : World Key → World Key} {body : WalletM Key α}
    {Q : α → World Key → Prop} :
    wp (onAbort cleanup body) Q E w ↔ wp body Q (fun e w' => E e (cleanup w')) w := by
  have hrun : (onAbort cleanup body).run w = onAbort cleanup body w := rfl
  simp only [wp, hrun, onAbort]
  rcases body.run w with ⟨_ | _, _⟩ <;> rfl

section
variable {R : World Key → World Key → Prop} (hback : ∀ s t, R s t → R s { t with db := s.db })
include hback

theorem restoringDb_along {α : Type} {keep : α → Bool} {body : WalletM Key α} (hbody : Along R body) :
    Along R (do let w ← get; restoringDb w.db keep body : WalletM Key α) := by
  intro w
  rw [wp_bind, wp_get, wp_restoringDb]
  refine hbody.wp_of (fun a w' h => ?_) fun _ w' h => hback w w' h
  cases keep a with
  | true => exact h
  | false => exact hback w w' h

theorem runWithinTxn_along [Std.Refl R] [IsTrans (World Key) R] {func : WalletM Key Bool}
    (hid : Along R (dbWrite id : WalletM Key Bool)) (hfunc : Along R func) : Along R (runWithinTxn func) := by
  refine hid.bind fun _ => .ite (restoringDb_along hback ?_) (.pure _)
  exact hfunc.bind fun _ => .ite hid (.pure _)
end

section
variable {α β : Type} {view : World Key → α} [HidesOutcomes view]

theorem nextOutcome_leaves : Along (Leaves view) (nextOutcome : WalletM Key Outcome) :=
  fun w => ⟨HidesOutcomes.tail w, 1, rfl⟩

theorem dbCall_leaves {ends : Outcome → DbOutcome} (hf : ∀ w, view (w.modifyDb f) = view w) :
    Along (Leaves view) (dbCall ends f : WalletM Key Bool) :=
  fun w => wp_dbCall ⟨(hf _).trans (HidesOutcomes.tail w), 1, rfl⟩ (nextOutcome_leaves w) (nextOutcome_leaves w)

theorem dbWrite_leaves (hf : ∀ w, view (w.modifyDb f) = view w) :
    Along (Leaves view) (dbWrite f : WalletM Key Bool) := dbCall_leaves hf

omit [HidesOutcomes view]
variable {f : CWallet Key → CWallet Key} (hf : ∀ w, view (w.modifyWallet f) = view w)
include hf

theorem modifyWallet_leaves : Along (Leaves view) (modifyWallet f) := fun w => ⟨hf w, Later.refl w⟩

theorem onAbort_leaves {body : WalletM Key β} (hbody : Along (Leaves view) body) :
    Along (Leaves view) (onAbort (World.modifyWallet f) body) := by
  intro w
  rw [wp_onAbort]
  exact hbody.wp_of (fun _ _ h => h) fun _ t h => ⟨(hf t).trans h.same, h.later⟩
end

variable {id : Uint256} {spkm : DescriptorScriptPubKeyMan}

theorem updateSpkm_keeps {f : DescriptorScriptPubKeyMan → DescriptorScriptPubKeyMan}
    (hf : ∀ spkm, (f spkm).core = spkm.core) :
    Along Keeps (updateSpkm id f : WalletM Key PUnit) := by
  refine modifyWallet_leaves fun w => ?_
  have hmap : (w.wallet.spkManagers.map fun spkm => if spkm.getID = id then f spkm else spkm).map
      DescriptorScriptPubKeyMan.core = w.wallet.spkManagers.map DescriptorScriptPubKeyMan.core := by
    rw [List.map_map]
    refine List.map_congr_left fun spkm _ => ?_
    by_cases hid : spkm.getID = id
    · simp [hid, hf]
    · simp [hid]
  simp only [World.core, World.modifyWallet, CWallet.updateSpkm, hmap]
  rfl

theorem rememberChangeProgram_keeps (program : Uint256) (index : Nat) :
    Along Keeps (rememberChangeProgram program index : WalletM Key PUnit) :=
  modifyWallet_leaves fun _ => rfl

theorem deriveQuantumProgramForKey_keeps (master : CExtKey) (ref : QuantumKeyRef) :
    Along Keeps (deriveQuantumProgramForKey env master ref) :=
  .bind (deriveQuantumManagerForKey_walk (Walk.along _) nextOutcome_leaves master ref) fun _ => .pure _

theorem loadQuantumManagerForKey_keeps (ref : QuantumKeyRef) :
    Along Keeps (loadQuantumManagerForKey env ref) :=
  loadQuantumManagerForKey_walk (Walk.along _) nextOutcome_leaves ref

theorem World.changeBase_remember {base : Int} (hnone : w.wallet.quantumChangeBase id = none)
    (hdb : w.db.quantumChangeBase id = some base) (hbase : 0 ≤ base) :
    (w.modifyWallet fun wallet => { wallet with
      quantumChangeBase := Function.update wallet.quantumChangeBase id (some base) }).changeBase =
      w.changeBase := by
  funext id'
  by_cases hid : id' = id
  · subst hid
    simp [World.changeBase, World.modifyWallet, hnone, hdb, hbase, Option.filter]
  · simp [World.changeBase, World.modifyWallet, hid]

theorem quantumChangeBaseFor_eq (id : Uint256) :
    wp (quantumChangeBaseFor id) (fun base w' => base = w.changeBase id ∧ Keeps w w')
      (fun _ _ => False) w := by
  simp only [quantumChangeBaseFor, wp_bind, wp_get]
  by_cases hi : w.wallet.internalSpkManager = some id
  · rw [if_neg (not_not.mpr hi)]
    cases hmem : w.wallet.quantumChangeBase id with
    | some base => exact ⟨by simp [World.changeBase, hi, hmem], refl_of Keeps w⟩
    | none =>
      cases hdb : w.db.quantumChangeBase id with
      | none => exact ⟨by simp [World.changeBase, hmem, hdb], refl_of Keeps w⟩
      | some base =>
        refine wp_ite (fun hbase => ?_) fun hbase => ?_
        · refine ⟨by simp [World.changeBase, hi, hmem, hdb, Option.filter, hbase], ?_⟩
          refine ⟨?_, Later.refl w⟩
          simp only [World.core, World.changeBase_remember hmem hdb hbase]
          rfl
        · exact ⟨by simp [World.changeBase, hmem, hdb, Option.filter, hbase], refl_of Keeps w⟩
  · rw [if_pos hi]
    exact ⟨by simp [World.changeBase, hi], refl_of Keeps w⟩

theorem quantumChangeBaseFor_keeps (id : Uint256) :
    Along Keeps (quantumChangeBaseFor id : WalletM Key (Option Int)) :=
  fun _ => wp_mono (quantumChangeBaseFor_eq id) (fun _ _ h => h.2) fun _ _ h => h.elim

theorem cachedOrDerivedProgram_keeps (ref : QuantumKeyRef) :
    Along Keeps (cachedOrDerivedProgram env ref) := by
  refine Along.get.bind fun w => ?_
  cases readCachedQuantumProgram w.db ref with
  | some program => exact .pure _
  | none =>
    cases tryGetTaprootDescriptorRootExtKey env w.wallet with
    | none => exact .pure _
    | some master => exact deriveQuantumProgramForKey_keeps master ref

theorem getQuantumTaprootForSpkmIndex_keeps (id : Uint256) (index : Int) :
    Along Keeps (getQuantumTaprootForSpkmIndex env id index) := by
  refine Along.get.bind fun w => .ite (.pure _) ?_
  refine (quantumChangeBaseFor_keeps id).bind fun base => ?_
  cases base with
  | none => exact cachedOrDerivedProgram_keeps _
  | some base =>
    refine .ite (cachedOrDerivedProgram_keeps _) ?_
    refine (cachedOrDerivedProgram_keeps _).bind fun program => ?_
    cases program with
    | none => exact .pure _
    | some program => exact (rememberChangeProgram_keeps _ _).bind fun _ => .pure _

theorem setWalletFlags_keeps (f : WalletFlags → WalletFlags) :
    Along Keeps (setWalletFlags f : WalletM Key PUnit) := by
  refine .bind ?_ fun _ => Along.get.bind fun w => ?_
  · exact modifyWallet_leaves fun _ => rfl
  refine .bind ?_ fun _ => .ite (.pure _) (.throw _)
  exact dbWrite_leaves fun _ => rfl

theorem writeDescriptorCacheItems_keeps (id : Uint256) (items : DescriptorCache) :
    Along Keeps (writeDescriptorCacheItems id items : WalletM Key Bool) :=
  .ite (.pure _) (dbWrite_leaves fun _ => rfl)

theorem topUpIndex_keeps (spkm : DescriptorScriptPubKeyMan) : Along Keeps (topUpIndex env spkm) := by
  refine Along.get.bind fun w => ?_
  dsimp only
  cases expandAt env w.wallet spkm (spkm.maxCachedIndex + 1) with
  | none => exact .pure _
  | some p =>
    refine (getQuantumTaprootForSpkmIndex_keeps _ _).bind fun qdest => ?_
    refine .bind (updateSpkm_keeps fun _ => rfl) fun _ => ?_
    refine (writeDescriptorCacheItems_keeps _ _).bind fun _ => .ite ?_ (.throw _)
    exact .bind (updateSpkm_keeps fun _ => rfl) fun _ => .pure _

theorem topUpIndices_keeps (id : Uint256) (n : Nat) (newSpks : List CScript) :
    Along Keeps (topUpIndices env id n newSpks) := by
  induction n generalizing newSpks with
  | zero => exact .pure _
  | succ n ih =>
    refine Along.get.bind fun w => ?_
    cases w.wallet.findSpkm id with
    | none => exact .pure _
    | some spkm =>
      refine (topUpIndex_keeps spkm).bind fun scripts => ?_
      cases scripts with
      | none => exact .pure _
      | some scripts => exact ih _

theorem topUpCallback_keeps (newSpks : List CScript) (id : Uint256) :
    Along Keeps (topUpCallback newSpks id : WalletM Key PUnit) :=
  modifyWallet_leaves fun _ => rfl

theorem writeDescriptor_keeps (desc : WalletDescriptor) : Along Keeps (writeDescriptor desc : WalletM Key Bool) :=
  dbWrite_leaves fun _ => rfl

theorem finishTopUp_keeps (id : Uint256) (newRangeEnd : Int) (newSpks : List CScript) :
    Along Keeps (finishTopUp id newRangeEnd newSpks : WalletM Key Bool) := by
  refine .bind (updateSpkm_keeps fun _ => rfl) fun _ => Along.get.bind fun w => ?_
  cases w.wallet.findSpkm id with
  | none => exact .pure _
  | some spkm =>
    refine (writeDescriptor_keeps _).bind fun _ => .ite ?_ (.throw _)
    exact (topUpCallback_keeps newSpks id).bind fun _ => .pure _

theorem DescriptorScriptPubKeyMan.fixRange_core (spkm : DescriptorScriptPubKeyMan) :
    spkm.fixRange.core = spkm.core := by
  rw [fixRange]
  split <;> rfl

theorem topUpWithDB_keeps (id : Uint256) (size : Nat) : Along Keeps (topUpWithDB env id size) := by
  refine Along.get.bind fun w => ?_
  cases w.wallet.findSpkm id with
  | none => exact .pure _
  | some spkm =>
    refine .bind (updateSpkm_keeps fun spkm => spkm.fixRange_core) fun _ => ?_
    refine (topUpIndices_keeps _ _ _).bind fun newSpks => ?_
    cases newSpks with
    | none => exact .pure _
    | some newSpks => exact finishTopUp_keeps _ _ _

theorem Keeps.restore (s t : World Key) (h : Keeps s t) : Keeps s { t with db := s.db } := by
  have hstored : t.db.quantumChangeBase = s.db.quantumChangeBase :=
    congrArg (fun c => c.db.quantumChangeBase) h.same
  have hbase : World.changeBase { t with db := s.db } = t.changeBase := by
    funext id
    simp [World.changeBase, hstored]
  refine ⟨?_, h.later⟩
  have hsame := h.same
  simp only [World.core, WalletCore.mk.injEq] at hsame ⊢
  rw [hbase]
  exact ⟨trivial, hsame.2⟩

theorem dbWrite_id_keeps : Along Keeps (dbWrite fun db => db : WalletM Key Bool) :=
  dbWrite_leaves fun _ => rfl

theorem runWithinTxn_keeps {func : WalletM Key Bool} (hfunc : Along Keeps func) :
    Along Keeps (runWithinTxn func) :=
  runWithinTxn_along Keeps.restore dbWrite_id_keeps hfunc

theorem topUp_keeps (id : Uint256) (size : Nat) : Along Keeps (topUp env id size) := by
  refine dbWrite_id_keeps.bind fun _ => .ite (restoringDb_along Keeps.restore ?_) (.pure _)
  refine (topUpWithDB_keeps id size).bind fun _ => dbWrite_id_keeps.bind fun _ => ?_
  exact .ite (.pure _) (.throw _)

theorem registerLookahead_keeps (id : Uint256) (start : Int) (n : Nat) :
    Along Keeps (registerLookahead env id start n) := by
  induction n with
  | zero => exact .pure _
  | succ n ih =>
    refine ih.bind fun _ => (getQuantumTaprootForSpkmIndex_keeps _ _).bind fun program => ?_
    cases program with
    | none => exact .pure _
    | some program =>
      refine Along.get.bind fun w => .ite (.pure _) ?_
      exact .bind (updateSpkm_keeps fun _ => rfl) fun _ => .pure _

theorem refreshQuantumLookahead_keeps (spkm : DescriptorScriptPubKeyMan) :
    Along Keeps (refreshQuantumLookahead env spkm) :=
  (registerLookahead_keeps _ _ _).bind fun _ => topUpCallback_keeps _ _

theorem topUpActive_keeps (internal : Bool) : Along Keeps (topUpActive env internal) := by
  refine Along.get.bind fun w => ?_
  cases w.wallet.getScriptPubKeyMan internal with
  | none => exact .pure _
  | some spkm => exact (topUp_keeps _ _).bind fun _ => .pure _

theorem topUpKeyPool_keeps : Along Keeps (topUpKeyPool env) :=
  (topUpActive_keeps false).bind fun _ => topUpActive_keeps true

theorem refreshActiveLookahead_keeps (internal : Bool) :
    Along Keeps (refreshActiveLookahead env internal) := by
  refine Along.get.bind fun w => ?_
  cases w.wallet.getScriptPubKeyMan internal with
  | none => exact .pure _
  | some spkm => exact refreshQuantumLookahead_keeps spkm

theorem eraseQuantumPending_keeps : Along Keeps (eraseQuantumPending : WalletM Key Bool) :=
  dbCall_leaves fun _ => rfl

theorem recoverPendingXmssDb_keeps (mgr : QuantumSafeManager Key) :
    Along Keeps (recoverPendingXmssDb env mgr) := by
  refine Along.get.bind fun w => ?_
  cases w.db.quantumPending with
  | none => exact .pure _
  | some pendingIndex =>
    refine nextOutcome_leaves.bind fun o => ?_
    cases mgr.getXmssIndex env.lib o.indexRead with
    | none => exact .pure _
    | some current =>
      exact .ite (.pure _) (eraseQuantumPending_keeps.bind fun _ => .pure _)
end

end Byze
