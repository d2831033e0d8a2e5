import Byze.Wallet.AllKeys

/-! Restoring a wallet from its recovery phrase. The leaves that its keys have
used are on the chain only, and nothing in the restored wallet reads them. -/

namespace Byze

/-- A transaction of the chain: the scripts that it pays, and for each output
that it spends by a signature the program and the XMSS leaf. -/
structure ChainTx where
  outputs : List CScript
  spends : List (Uint256 × Nat)

def rescanRestoredWallet (chain : List ChainTx) : List WalletOp :=
  (chain.flatMap (·.outputs)).map .payment

/-- What is done to a new wallet when a phrase is restored. With a passphrase it
is encrypted, and unlocked for the rescan. -/
def restoreWalletFromMnemonic (entropy : Uint256) (passphrase : Bytes) (chain : List ChainTx) :
    List WalletOp :=
  if passphrase = [] then .restore entropy :: rescanRestoredWallet chain
  else
    .restore entropy :: .encrypt passphrase :: .unlock passphrase :: (rescanRestoredWallet chain ++ [.lock])

/-- The key has used no leaf, in memory or as stored. -/
def QuantumSafeManager.AtStart {Key : Type} (lib : Liboqs Key) (m : QuantumSafeManager Key) : Prop :=
  ∀ sk, m.xmssPrivate = some sk → (∀ s, sk.currentSecret lib = some s → s.index = 0) ∧
    ∀ s, lib.stflDeserialize sk.secretKey = some s → s.index = 0

section
variable {Key : Type} {env : WalletEnv Key} {program : Uint256} {mgr : QuantumSafeManager Key}

def Unspent (env : WalletEnv Key) (program : Uint256) (mgr : QuantumSafeManager Key) : Prop :=
  mgr.Sized ∧ (programFromManager env mgr = some program → mgr.AtStart env.lib)

theorem unspent_keptByCopies : KeptByCopies (Unspent env program) := by
  rintro mgr plain mgr' ⟨hsized, hstart⟩ hplain hd
  refine ⟨QuantumSafeManager.sized_of_deserialize hd, fun hown => ?_⟩
  obtain ⟨sk, xp, ss, sp, algo, rfl, rfl⟩ :=
    QuantumSafeManager.deserialize_of_serialize hsized hplain hd
  have hstored := (hstart hown sk rfl).2
  intro sk' hsk'
  obtain rfl := Option.some.inj hsk'
  exact ⟨hstored, hstored⟩

theorem unspent_of_derivedKey {root : CExtKey} {ref : QuantumKeyRef} {o : KeygenOutcome}
    (h : derivedKey env root ref o = some mgr) : Unspent env program mgr := by
  obtain ⟨hok, hmgr⟩ := Option.ite_none_right_eq_some.mp h
  obtain ⟨seed, hsec, -⟩ := QuantumSafeManager.pairedAt_of_generate hok
  obtain rfl := Option.some.inj hmgr
  constructor
  · intro sk hsk
    obtain rfl := Option.some.inj (Eq.trans hsec.symm hsk)
    exact env.lib.stflSerialize_length_le _
  · intro _ sk hsk
    obtain rfl := Option.some.inj (Eq.trans hsec.symm hsk)
    refine ⟨fun s hs => ?_, fun s hs => ?_⟩
    · obtain rfl := Option.some.inj hs
      rfl
    · obtain rfl := Option.some.inj (Eq.trans (env.lib.stflDeserialize_serialize _).symm hs)
      rfl

theorem unspent_sign {other : Uint256} (hne : other ≠ program) (hmgr : Unspent env program mgr)
    (hown : programFromManager env mgr = some other) (sighash : Uint256) (o : SignOutcome) :
    Unspent env program (mgr.sign env.lib sighash .xmss o).2.1 := by
  refine ⟨QuantumSafeManager.sign_sized hmgr.1 sighash o, fun h => ?_⟩
  rw [programFromManager_sign, hown] at h
  exact absurd (Option.some.inj h) hne

theorem QuantumSafeManager.AtStart.sign_leaf {lib : Liboqs Key} (h : mgr.AtStart lib) {sighash : Uint256}
    {o : SignOutcome} {key : Key} {i : Nat}
    (hleaf : (mgr.sign lib sighash .xmss o).2.2 = some (key, i)) : i = 0 := by
  cases hsk : mgr.xmssPrivate with
  | none => simp [sign, hsk] at hleaf
  | some sk =>
    simp only [sign, hsk] at hleaf
    split at hleaf
    · cases hleaf
    obtain ⟨s, hs, -, rfl⟩ := XmssPrivateKey.sign_leaf_key hleaf
    exact (h sk hsk).1 s hs

theorem SignStep.leaf_of_unspent {c c' : KeyState Key} {key : Key} {i : Nat}
    {master : Uint256} (h : SignStep env program c c') (hc : AllKeys env master (Unspent env program) c)
    (hleaf : c'.leaves = (key, i) :: c.leaves) : i = 0 := by
  have hsame : ∀ leaves : List (Key × Nat), leaves ≠ (key, i) :: leaves :=
    fun leaves h => absurd (congrArg List.length h) (by simp)
  cases h with
  | advance => exact absurd hleaf (hsame _)
  | unsaved ref mgr sighash o =>
    rw [KeyState.leaves_keepSigned] at hleaf
    exact absurd hleaf (hsame _)
  | signed ref mgr sighash o packed _ hsource hown =>
    rw [KeyState.leaves_keepSigned] at hleaf
    have hstart := (hsource.good (fun _ _ _ _ => unspent_of_derivedKey) hc).2 hown
    cases hl : (mgr.sign env.lib sighash .xmss o).2.2 with
    | none =>
      simp only [hl] at hleaf
      exact absurd hleaf (hsame _)
    | some leaf =>
      simp only [hl] at hleaf
      obtain ⟨rfl, -⟩ := List.cons.inj hleaf
      exact hstart.sign_leaf hl

theorem walletRun_unspent {master : Uint256} {keypoolSize : Nat} {outcomes : Nat → Outcome}
    {es : List WalletEvent} (hone : OneMasterKey env (World.new Key keypoolSize outcomes) master es)
    (hes : ∀ e ∈ es, ¬ e.op.signs program) :
    ∃ master', AllKeys env master' (Unspent env program)
      (walletRun env (World.new Key keypoolSize outcomes) es).keyState := by
  refine walletRun_allKeys (fun _ _ _ _ => unspent_of_derivedKey) (· ≠ program)
    unspent_keptByCopies ?_ (allKeys_new _ _) hone fun e he other hother hne => hes e he (hne ▸ hother)
  exact fun other mgr sighash o hne hmgr hown => unspent_sign hne hmgr hown sighash o

theorem walletStep_leaf_of_unspent {w : World Key} {e : WalletEvent} {key : Key} {i : Nat} {master : Uint256}
    (hw : AllKeys env master (Unspent env program) w.keyState) (he : e.op.signs program)
    (hleaf : (walletStep env w e).signedLeaves = (key, i) :: w.signedLeaves) : i = 0 := by
  have hcases : (walletStep env w e).signedLeaves = w.signedLeaves ∨
      ∃ c, SignStep env program w.keyState c ∧ (walletStep env w e).signedLeaves = c.leaves :=
    walletStep_sign he
  rcases hcases with hsame | ⟨c, hstep, hc⟩
  · have hlen := congrArg List.length (hleaf.symm.trans hsame)
    simp at hlen
  · exact hstep.leaf_of_unspent hw (hc.symm.trans hleaf)

theorem not_signs_of_restore {entropy : Uint256} {passphrase : Bytes} {chain : List ChainTx}
    {op : WalletOp} (hop : op ∈ restoreWalletFromMnemonic entropy passphrase chain) :
    ¬ op.signs program := by
  have hrescan : op ∈ rescanRestoredWallet chain → ¬ op.signs program := by
    intro h
    obtain ⟨script, -, rfl⟩ := List.mem_map.mp h
    exact id
  rw [restoreWalletFromMnemonic] at hop
  split at hop
  · rcases List.mem_cons.mp hop with rfl | hop
    · exact id
    · exact hrescan hop
  · simp only [List.mem_cons, List.mem_append, List.not_mem_nil, or_false] at hop
    rcases hop with rfl | rfl | rfl | hop | rfl
    · exact id
    · exact id
    · exact id
    · exact hrescan hop
    · exact id

/-- After a restore with its rescan, and whatever else happens to the wallet
before it first signs for a program, that first signature is past the leaves of
the spends on the chain exactly when there are none. The wallet's secrets are
under one master key, if any. -/
theorem restored_first_leaf_iff {keypoolSize : Nat} {outcomes : Nat → Outcome} {entropy : Uint256}
    {passphrase : Bytes} {chain : List ChainTx} {restored later : List WalletEvent} {e : WalletEvent}
    {key : Key} {i : Nat} {master : Uint256}
    (hone : OneMasterKey env (World.new Key keypoolSize outcomes) master (restored ++ later))
    (hrestored : restored.map (·.op) = restoreWalletFromMnemonic entropy passphrase chain)
    (hlater : ∀ e ∈ later, ¬ e.op.signs program) (he : e.op.signs program)
    (hleaf : (walletRun env (World.new Key keypoolSize outcomes)
        (restored ++ later ++ [e])).signedLeaves = (key, i) ::
      (walletRun env (World.new Key keypoolSize outcomes) (restored ++ later)).signedLeaves) :
    (∀ tx ∈ chain, ∀ leaf, (program, leaf) ∈ tx.spends → leaf < i) ↔
      ∀ tx ∈ chain, ∀ leaf, (program, leaf) ∉ tx.spends := by
  have hnone : ∀ e ∈ restored ++ later, ¬ e.op.signs program := by
    intro e' he'
    rcases List.mem_append.mp he' with he' | he'
    · exact not_signs_of_restore (hrestored ▸ List.mem_map_of_mem he')
    · exact hlater e' he'
  rw [walletRun_concat] at hleaf
  obtain ⟨master', hunspent⟩ := walletRun_unspent hone hnone
  obtain rfl := walletStep_leaf_of_unspent hunspent he hleaf
  simp
end

def sampleSpentChain : List ChainTx :=
  [⟨[witnessV1Script sampleProgram], []⟩, ⟨[], [(sampleProgram, 0)]⟩]

def sampleRestoreEvents : List WalletEvent :=
  [⟨.restore Uint256.zero, sampleSucceeds⟩, ⟨.payment (witnessV1Script sampleProgram), sampleSucceeds⟩]

def sampleSignEvent : WalletEvent := ⟨.sign Uint256.zero sampleProgram.val, sampleSucceeds⟩

theorem sampleSignEvent_signs : sampleSignEvent.op.signs sampleProgram := by
  change witnessProgramOf sampleProgram.val = some sampleProgram
  decide

def sampleSealedRestore : List WalletEvent :=
  [⟨.restore Uint256.zero, sampleSucceeds⟩, ⟨.encrypt [1], sampleSucceeds⟩, ⟨.unlock [1], sampleSucceeds⟩,
    ⟨.payment (witnessV1Script sampleProgram), sampleSucceeds⟩, ⟨.lock, sampleSucceeds⟩]

theorem restored_first_leaf_sample :
    (∀ tx ∈ sampleSpentChain, ∀ leaf, (sampleProgram, leaf) ∈ tx.spends → leaf < 0) ↔
      ∀ tx ∈ sampleSpentChain, ∀ leaf, (sampleProgram, leaf) ∉ tx.spends := by
  have hrestored : sampleSealedRestore.map (·.op) =
      restoreWalletFromMnemonic Uint256.zero [1] sampleSpentChain := rfl
  have hone : OneMasterKey sampleWalletEnv (World.new UInt8 2 sampleSucceeds) Uint256.zero
      (sampleSealedRestore ++ [⟨.unlock [1], sampleSucceeds⟩]) := by
    have hkey : ∀ (w : World UInt8) (op : WalletOp), eventKey w ⟨op, sampleSucceeds⟩ Uint256.zero = Uint256.zero := by
      intro w op
      simp only [eventKey, masterKeyAfter, drawnMasterKey]
      split
      · split <;> rfl
      · rfl
    simp only [sampleSealedRestore, List.cons_append, List.nil_append, OneMasterKey, hkey, ne_eq, not_true,
      false_imp_iff, true_and, and_true, OpensOnly]
    decide +kernel
  have hlater : ∀ e ∈ [(⟨.unlock [1], sampleSucceeds⟩ : WalletEvent)], ¬ e.op.signs sampleProgram := by
    simp [WalletOp.signs]
  have hleaf : (walletRun sampleWalletEnv (World.new UInt8 2 sampleSucceeds)
      (sampleSealedRestore ++ [⟨.unlock [1], sampleSucceeds⟩] ++ [sampleSignEvent])).signedLeaves = (173, 0) ::
        (walletRun sampleWalletEnv (World.new UInt8 2 sampleSucceeds)
          (sampleSealedRestore ++ [⟨.unlock [1], sampleSucceeds⟩])).signedLeaves := by decide +kernel
  exact restored_first_leaf_iff hone hrestored hlater sampleSignEvent_signs hleaf

/-- The restored wallet signs with the leaf that is on the chain already. -/
theorem restored_leaf_reused :
    sampleRestoreEvents.map (·.op) = restoreWalletFromMnemonic Uint256.zero [] sampleSpentChain ∧
    (walletRun sampleWalletEnv (World.new UInt8 2 sampleSucceeds)
      (sampleRestoreEvents ++ [sampleSignEvent])).signedLeaves = [(173, 0)] ∧
    ∃ tx ∈ sampleSpentChain, (sampleProgram, 0) ∈ tx.spends := by
  refine ⟨rfl, by decide +kernel, ⟨[], [(sampleProgram, 0)]⟩, ?_, ?_⟩
  · simp [sampleSpentChain]
  · simp

end Byze
