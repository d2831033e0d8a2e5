import Byze.Wallet.SignSpec

/-! The record of a leaf that is about to be signed with. It is written before
the signature, taken away with the key that is stored after it or by the guard
on every other way out, and stops all signing where it stays behind. -/

namespace Byze
open StateWp

/-- Calls may fail, but the process does not crash and the pending record can be
removed. -/
def LeavesNone (outcomes : Nat → Outcome) : Prop :=
  ∀ n, (outcomes n).db ≠ .crashes ∧ (outcomes n).erase = .succeeds

section
variable {Key : Type} {env : WalletEnv Key} {w w' : World Key} {mgr : QuantumSafeManager Key}

theorem DbSucceeds.leavesNone {outcomes : Nat → Outcome} (h : DbSucceeds outcomes) :
    LeavesNone outcomes := by
  intro n
  obtain ⟨hdb, herase⟩ := h n
  refine ⟨?_, herase⟩
  rw [hdb]
  simp

theorem LeavesNone.later (h : LeavesNone w.outcomes) (hl : Later w w') : LeavesNone w'.outcomes := by
  obtain ⟨k, hk⟩ := hl
  intro n
  rw [hk]
  exact h (n + k)

theorem LeavesNone.wp_dbWrite (h : LeavesNone w.outcomes) {f : WalletDb → WalletDb}
    {Q : Bool → World Key → Prop} {E : Abort → World Key → Prop}
    (hok : Q true (w.tail.modifyDb f))
    (hfail : Q false w.tail) : wp (dbWrite f) Q E w := by
  simp only [dbWrite, dbCall, wp_bind, wp_nextOutcome]
  cases hdb : (w.outcomes 0).db with
  | succeeds => exact hok
  | fails => exact hfail
  | crashes => exact absurd hdb (h 0).1

theorem LeavesNone.wp_runWithinTxn (h : LeavesNone w.outcomes) {func : WalletM Key Bool}
    {P : World Key → Prop}
    (hfunc : wp func (fun ok w' => Later w w' ∧ (ok = true → P w')) (fun _ _ => False) w.tail)
    (hP : ∀ v : World Key, P v → P v.tail) :
    wp (runWithinTxn func)
      (fun ok w' => Later w w' ∧ (ok = true → P w') ∧ (ok = false → w'.db = w.db)) (fun _ _ => False) w := by
  rw [runWithinTxn, wp_bind]
  refine h.wp_dbWrite ?_ ⟨⟨1, rfl⟩, by simp, fun _ => rfl⟩
  rw [if_pos rfl, wp_bind, wp_get, wp_restoringDb, wp_bind]
  refine wp_mono hfunc ?_ fun _ _ he => he.elim
  rintro ok w₁ ⟨hlater, hdone⟩
  refine wp_ite (fun hok => ?_) fun _ => ⟨hlater, by simp, fun _ => rfl⟩
  have hlast : Later w w₁.tail := hlater.trans ⟨1, rfl⟩
  exact (h.later hlater).wp_dbWrite ⟨hlast, fun _ => hP w₁ (hdone hok), by simp⟩
    ⟨hlast, by simp, fun _ => rfl⟩

section
variable (hs : LeavesNone w.outcomes)
include hs

theorem persistQuantumKeyPacked_later (ref : QuantumKeyRef) (enc : Bool) (origin : UInt8)
    (program : Uint256) (payload : Bytes) :
    wp (persistQuantumKeyPacked ref enc origin program payload) (fun _ w' => Later w w')
      (fun _ _ => False) w := by
  refine wp_ite (fun _ => hs.wp_dbWrite ⟨1, rfl⟩ ⟨1, rfl⟩) fun _ => ?_
  rw [persistQuantumManagerPacked, wp_bind]
  refine hs.wp_dbWrite ?_ ⟨1, rfl⟩
  rw [if_pos rfl]
  have hs₁ : LeavesNone fun n => w.outcomes (n + 1) := fun n => hs (n + 1)
  exact wp_ite (fun _ => LeavesNone.wp_dbWrite hs₁ ⟨2, rfl⟩ ⟨2, rfl⟩) fun _ => ⟨1, rfl⟩

theorem persistSigned_erases (ref : QuantumKeyRef) (mgr : QuantumSafeManager Key) :
    wp (persistSigned env ref mgr)
      (fun ok w' => Later w w' ∧ (ok = true → w'.db.quantumPending = none)) (fun _ _ => False) w := by
  have hfalse : Later w w ∧ (false = true → w.db.quantumPending = none) := ⟨Later.refl w, by simp⟩
  simp only [persistSigned, wp_bind, wp_get]
  cases mgr.serializeDualKeys with
  | none => exact hfalse
  | some plain =>
    dsimp only
    cases sealPayload env w.wallet plain with
    | none => exact hfalse
    | some payload =>
      cases programFromManager env mgr with
      | none => exact hfalse
      | some program =>
        simp only [wp_bind]
        refine wp.imp (persistQuantumKeyPacked_later hs ref _ _ _ _) ?_
        intro ok w₁ hlater
        refine wp_ite (fun _ => ?_) fun _ => ⟨hlater, by simp⟩
        rw [wp_bind]
        refine wp_eraseQuantumPending (hs.later hlater 0).2 ?_
        have hdone : Later w w₁.tail :=
          hlater.trans ⟨1, rfl⟩
        exact wp_ite (fun _ => ⟨hdone, fun _ => rfl⟩) fun _ => ⟨hdone, fun _ => rfl⟩

theorem commitSigned_erases (ref : QuantumKeyRef) (mgr : QuantumSafeManager Key) :
    wp (runWithinTxn (persistSigned env ref mgr))
      (fun ok w' => Later w w' ∧ (ok = true → w'.db.quantumPending = none)) (fun _ _ => False) w := by
  refine wp.imp (hs.wp_runWithinTxn (P := fun w' => w'.db.quantumPending = none) ?_ fun _ h => h) ?_
  · refine wp.imp (persistSigned_erases (hs.later ⟨1, rfl⟩) ref mgr) ?_
    rintro ok w₁ ⟨hlater, hpending⟩
    exact ⟨Later.trans ⟨1, rfl⟩ hlater, hpending⟩
  · rintro ok w₁ ⟨hlater, hpending, -⟩
    exact ⟨hlater, hpending⟩

theorem signReserved_erases (ref : QuantumKeyRef) (inMemory : Bool) (reservedIndex : Nat)
    (sighash : Uint256) :
    wp (signReserved env ref inMemory mgr reservedIndex sighash)
      (fun r w' => Later w w' ∧ (r.isSome = true → w'.db.quantumPending = none))
      (fun _ _ => False) w := by
  refine wp_ite (fun _ => ⟨⟨2, rfl⟩, by simp⟩) fun _ => ?_
  rw [wp_bind, wp_nextOutcome]
  cases QuantumSafeManager.getXmssIndex env.lib _ _ with
  | none => exact ⟨⟨3, rfl⟩, by simp⟩
  | some postSignIndex =>
    refine wp_ite (fun _ => ⟨⟨3, rfl⟩, by simp⟩) fun _ => ?_
    refine wp.seq (commitSigned_erases (fun n => hs (n + 3)) ref _) ?_
    rintro ok w₁ ⟨hlater, hpending⟩
    have hl : Later w w₁ := Later.trans ⟨3, rfl⟩ hlater
    exact wp_ite (fun hok => ⟨hl, fun _ => hpending hok⟩) fun _ => ⟨hl, by simp⟩

theorem signWithManager_leaves_none {program : Uint256} (hrecover : wp (recoverPendingXmssDb env mgr)
      (fun ok w' => ok = true ∧ Later w w' ∧ w'.db.quantumPending = none) (fun _ _ => False) w)
    (ref : QuantumKeyRef) (inMemory : Bool) (sighash : Uint256) :
    wp (signWithManager env ref inMemory mgr program sighash)
      (fun _ w' => w'.db.quantumPending = none) (fun _ _ => False) w := by
  rw [signWithManager, wp_bind]
  refine wp.imp hrecover ?_
  rintro _ w₁ ⟨rfl, hlater, hnone⟩
  have hs₁ := hs.later hlater
  rw [if_pos rfl]
  refine wp_ite (fun _ => hnone) fun _ => ?_
  rw [wp_bind, wp_nextOutcome]
  cases mgr.getXmssIndex env.lib (w₁.outcomes 0).indexRead with
  | none => exact hnone
  | some reservedIndex =>
    have hs₂ : LeavesNone fun n => w₁.outcomes (n + 1) := fun n => hs₁ (n + 1)
    simp only [wp_bind]
    refine wp.imp (LeavesNone.wp_runWithinTxn (P := fun _ => True) hs₂ ?_ fun _ _ => trivial) ?_
    · exact LeavesNone.wp_dbWrite (fun n => hs₂ (n + 1)) ⟨⟨2, rfl⟩, fun _ => trivial⟩ ⟨⟨2, rfl⟩, by simp⟩
    rintro ok w₂ ⟨hlater₂, -, hback⟩
    have hs₃ : LeavesNone w₂.outcomes := LeavesNone.later hs₂ hlater₂
    refine wp_ite (fun _ => ?_) fun hok => ?_
    · refine wp.seq (signReserved_erases hs₃ ref inMemory _ sighash) ?_
      rintro (_ | signature) w₃ ⟨hlater₃, hpending⟩
      · rw [wp_bind]
        exact wp_eraseQuantumPending (hs₃.later hlater₃ 0).2 rfl
      · exact hpending rfl
    · have hdb := hback (Bool.eq_false_iff.mpr hok)
      change w₂.db.quantumPending = none
      rw [hdb]
      exact hnone
end

theorem recoverPendingXmssDb_of_none (env : WalletEnv Key) (hpending : w.db.quantumPending = none)
    (mgr : QuantumSafeManager Key) :
    wp (recoverPendingXmssDb env mgr) (fun ok w' => ok = true ∧ w' = w) (fun _ _ => False) w := by
  simp only [recoverPendingXmssDb, wp_bind, wp_get, hpending]
  exact ⟨rfl, rfl⟩

theorem signQuantumTransactionSighash_leaves_none (env : WalletEnv Key) (hs : LeavesNone w.outcomes)
    (hpending : w.db.quantumPending = none) (sighash : Uint256) (outputProgram : Bytes) :
    wp (signQuantumTransactionSighash env sighash outputProgram)
      (fun _ w' => w'.db.quantumPending = none) (fun _ _ => False) w := by
  refine wp_signQuantumTransactionSighash (fun _ _ => hpending) ?_
  intro program ref mgr inMemory k _ _ _ _ _
  have hs' : LeavesNone fun n => w.outcomes (n + k) := fun n => hs (n + k)
  refine signWithManager_leaves_none hs' ?_ ref inMemory sighash
  refine wp.imp (recoverPendingXmssDb_of_none env ?_ mgr) ?_
  · exact hpending
  rintro ok _ ⟨rfl, rfl⟩
  exact ⟨rfl, ⟨0, rfl⟩, hpending⟩

structure SignCall where
  sighash : Uint256
  outputProgram : Bytes
  outcomes : Nat → Outcome

def SignCall.run (env : WalletEnv Key) (call : SignCall) (w : World Key) :
    Except Abort (Option QuantumSignature) × World Key :=
  (signQuantumTransactionSighash env call.sighash call.outputProgram).run { w with outcomes := call.outcomes }

def signRun (env : WalletEnv Key) (w : World Key) (calls : List SignCall) : World Key :=
  calls.foldl (fun w call => (call.run env w).2) w

theorem signRun_leaves_none {calls : List SignCall} (hpending : w.db.quantumPending = none)
    (hcalls : ∀ call ∈ calls, LeavesNone call.outcomes) :
    (signRun env w calls).db.quantumPending = none := by
  induction calls generalizing w with
  | nil => exact hpending
  | cons call calls ih =>
    have hcall := signQuantumTransactionSighash_leaves_none env (w := { w with outcomes := call.outcomes })
      (hcalls call List.mem_cons_self) hpending call.sighash call.outputProgram
    refine ih ?_ fun c hc => hcalls c (List.mem_cons_of_mem call hc)
    simp only [wp] at hcall
    simp only [SignCall.run]
    split at hcall
    next hrun => rwa [hrun]
    next => exact hcall.elim

/-- However the calls of a run fail, none of them leaves a pending record, each
of them returns, and the recovery before a later signature lets every key pass. -/
theorem no_pending_record_left (hpending : w.db.quantumPending = none) {calls : List SignCall}
    (hcalls : ∀ call ∈ calls, LeavesNone call.outcomes) :
    (signRun env w calls).db.quantumPending = none ∧ ∀ call : SignCall, LeavesNone call.outcomes →
        (∃ signature, (call.run env (signRun env w calls)).1 = .ok signature) ∧
        ∀ mgr, ((recoverPendingXmssDb env mgr).run
          { signRun env w calls with outcomes := call.outcomes }).1 = .ok true := by
  have hnone : (signRun env w calls).db.quantumPending = none := signRun_leaves_none hpending hcalls
  refine ⟨hnone, fun call hcall => ⟨?_, fun mgr => ?_⟩⟩
  · have hsign := signQuantumTransactionSighash_leaves_none env
      (w := { signRun env w calls with outcomes := call.outcomes }) hcall hnone call.sighash
      call.outputProgram
    simp only [wp] at hsign
    rw [SignCall.run]
    split at hsign
    next signature _ hrun => exact ⟨signature, by rw [hrun]⟩
    next => exact hsign.elim
  · have hrecover := recoverPendingXmssDb_of_none env
      (w := { signRun env w calls with outcomes := call.outcomes }) hnone mgr
    simp only [wp] at hrecover
    split at hrecover
    next hrun =>
      rw [hrun, hrecover.1]
    next => exact hrecover.elim
end

def failingSignCall : SignCall :=
  ⟨Uint256.zero, sampleProgram.val,
    Function.update sampleSucceeds 7 { Outcome.good Uint256.zero with db := .fails }⟩

theorem failingSignCall_leavesNone : LeavesNone failingSignCall.outcomes := by
  intro n
  by_cases hn : n = 7
  · subst hn
    exact ⟨by decide, rfl⟩
  · have heq : failingSignCall.outcomes n = .good Uint256.zero := Function.update_of_ne hn _ _
    rw [heq]
    exact ⟨by decide, rfl⟩

theorem no_pending_record_left_sample :
    let w := walletRun sampleWalletEnv (World.new UInt8 1 sampleSucceeds) sampleAddressEvents
    w.db.quantumPending = none ∧ (signRun sampleWalletEnv w [failingSignCall]).db.quantumPending = none := by
  intro w
  have hpending : w.db.quantumPending = none := by decide +kernel
  refine ⟨hpending, (no_pending_record_left hpending ?_).1⟩
  intro call hcall
  obtain rfl := List.mem_singleton.mp hcall
  exact failingSignCall_leavesNone

end Byze
