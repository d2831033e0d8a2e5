import Byze.Wallet.PendingRecord

/-! Signing with a locked wallet: which keys are still at hand, and that they
are what decides whether signing is refused without a write. -/

namespace Byze
open StateWp

section
variable {Key : Type} (env : WalletEnv Key)

def openRecordKey (packed : Bytes) : Option (QuantumSafeManager Key) :=
  (unpackQuantumDbRecord packed).bind fun r =>
    if r.encrypted then none
    else
      (QuantumSafeManager.deserializeDualKeys r.payload).bind fun mgr =>
        if programFromManager env mgr = some r.program then some mgr else none

def plainRoot (wallet : CWallet Key) : Option CExtKey :=
  (wallet.getScriptPubKeyMan false).bind fun spkm =>
    if spkm.walletDescriptor.descriptor.outputType ≠ some .bech32m then none
    else if !spkm.havePrivateKeys then none
    else spkm.walletDescriptor.descriptor.rootExtKey spkm.mapKeys

/-- The key that can be had without the master key: from memory, from a record
that is not encrypted, or from the root where there is no record. -/
def keyAtHand (w : World Key) (ref : QuantumKeyRef) (program : Uint256) (o : KeygenOutcome) :
    Option (QuantumSafeManager Key) :=
  (keyInMemory w ref program).or <|
    match ref.dbKeys.findSome? w.db.readQuantum with
    | some packed => openRecordKey env packed
    | none => (plainRoot w.wallet).bind fun root => derivedKey env root ref o

/-- What a key is good for: it belongs to the program and no signature was
begun, or it takes away the record of one that was. -/
def Uses (db : WalletDb) (program : Uint256) (mgr : QuantumSafeManager Key) : Prop :=
  (db.quantumPending = none ∧ programFromManager env mgr = some program) ∨
    ∃ pending o current, db.quantumPending = some pending ∧
      mgr.getXmssIndex env.lib o = some current ∧ pending < current

def NothingAtHand (w : World Key) : Prop :=
  ∀ program ref mgr o, findQuantumKeyForProgram w program = some ref →
    keyAtHand env w ref program o = some mgr → ¬ Uses env w.db program mgr

/-- No signature comes out, and the database is as it was, also after a crash. -/
def Refuses (w : World Key) (sighash : Uint256) (outputProgram : Bytes) (outcomes : Nat → Outcome) :
    Prop :=
  let r := (signQuantumTransactionSighash env sighash outputProgram).run { w with outcomes := outcomes }
  (∀ signature, r.1 ≠ .ok (some signature)) ∧ r.2.db = w.db

variable {env} {w : World Key} {mgr : QuantumSafeManager Key}

theorem unpackQuantumBlobToManager_nil (packed : Bytes) :
    unpackQuantumBlobToManager env [] packed = openRecordKey env packed := by
  simp only [unpackQuantumBlobToManager, openQuantumPayload]
  congr
  funext r
  cases r.encrypted <;> rfl

theorem tryGetTaprootDescriptorRootExtKey_of_locked (hl : w.wallet.isLocked = true) :
    tryGetTaprootDescriptorRootExtKey env w.wallet = plainRoot w.wallet := by
  simp only [tryGetTaprootDescriptorRootExtKey]
  congr
  funext spkm
  simp [exportTaprootDescriptorRootExtKey, DescriptorScriptPubKeyMan.getKeys, hl]

theorem signingKey_of_locked (hl : w.wallet.isLocked = true) (ref : QuantumKeyRef) (program : Uint256)
    (o : KeygenOutcome) : signingKey env w ref program o = keyAtHand env w ref program o := by
  have hv : w.wallet.vMasterKey = [] := by
    simp only [CWallet.isLocked, Bool.and_eq_true, List.isEmpty_iff] at hl
    exact hl.2
  cases hread : ref.dbKeys.findSome? w.db.readQuantum with
  | none =>
    simp [signingKey, storedOrDerivedKey, keyAtHand, hread, tryGetTaprootDescriptorRootExtKey_of_locked hl]
  | some packed =>
    simp [signingKey, storedOrDerivedKey, keyAtHand, hread, hv, unpackQuantumBlobToManager_nil]

variable {program : Uint256}

theorem recoverPendingXmssDb_refuses (h : ¬ Uses env w.db program mgr) : wp (recoverPendingXmssDb env mgr)
      (fun ok w' => w'.db = w.db ∧ (ok = true → programFromManager env mgr ≠ some program))
      (fun _ _ => False) w := by
  simp only [recoverPendingXmssDb, wp_bind, wp_get]
  cases hpending : w.db.quantumPending with
  | none => exact ⟨rfl, fun _ hprogram => h (Or.inl ⟨hpending, hprogram⟩)⟩
  | some pending =>
    simp only [wp_bind, wp_nextOutcome]
    cases hindex : mgr.getXmssIndex env.lib (w.outcomes 0).indexRead with
    | none => exact ⟨rfl, by simp⟩
    | some current =>
      have hle : pending ≥ current := by
        by_contra hlt
        exact h (Or.inr ⟨pending, _, current, hpending, hindex, Nat.lt_of_not_le hlt⟩)
      simp only [decide_eq_true hle]
      exact ⟨rfl, by simp⟩

theorem signWithManager_refuses (h : ¬ Uses env w.db program mgr)
    (ref : QuantumKeyRef) (inMemory : Bool) (sighash : Uint256) :
    wp (signWithManager env ref inMemory mgr program sighash)
      (fun r w' => r = none ∧ w'.db = w.db) (fun _ _ => False) w := by
  rw [signWithManager, wp_bind]
  refine wp.imp (recoverPendingXmssDb_refuses h) ?_
  rintro ok w' ⟨hdb, hprogram⟩
  refine wp_ite (fun hok => ?_) fun _ => ⟨rfl, hdb⟩
  rw [if_pos (hprogram hok)]
  exact ⟨rfl, hdb⟩

theorem refuses_of_nothingAtHand (hl : w.wallet.isLocked = true) (h : NothingAtHand env w)
    (sighash : Uint256) (outputProgram : Bytes) (outcomes : Nat → Outcome) :
    Refuses env w sighash outputProgram outcomes := by
  have hsign : wp (signQuantumTransactionSighash env sighash outputProgram)
      (fun r w' => r = none ∧ w'.db = w.db) (fun _ _ => False) { w with outcomes := outcomes } := by
    refine wp_signQuantumTransactionSighash (fun _ _ => ⟨rfl, rfl⟩) fun program ref mgr inMemory k _
      hfind hkey _ _ => ?_
    refine signWithManager_refuses (w := { w with outcomes := fun n => outcomes (n + k) }) ?_ ref
      inMemory sighash
    refine h program ref mgr (outcomes 0).keygen hfind ?_
    rw [← signingKey_of_locked hl]
    exact hkey
  simp only [wp] at hsign
  simp only [Refuses]
  split at hsign
  next r w' hrun =>
    rw [hrun]
    obtain ⟨rfl, hdb⟩ := hsign
    exact ⟨by simp, hdb⟩
  next => exact hsign.elim

theorem Refuses.not_signs {sighash : Uint256} {outputProgram : Bytes} {outcomes : Nat → Outcome}
    (h : Refuses env w sighash outputProgram outcomes) :
    ¬ Signs env w sighash outputProgram outcomes := by
  rintro ⟨signature, hs⟩
  exact h.1 signature hs

def crashingOutcomes (o : KeygenOutcome) : Nat → Outcome := fun n =>
  ⟨if n ≤ 4 then .succeeds else .crashes, .crashes, o, ⟨true, .succeeds, true⟩, .succeeds, Uint256.zero, 0⟩

def lastingOutcomes (o : KeygenOutcome) (read : IndexReadOutcome) : Nat → Outcome := fun _ =>
  ⟨.succeeds, .succeeds, o, ⟨true, .succeeds, true⟩, read, Uint256.zero, 0⟩

theorem wp_dbCall_of_crashes {ends : Outcome → DbOutcome} {f : WalletDb → WalletDb}
    (hc : ends (w.outcomes 0) = .crashes) {Q : Bool → World Key → Prop} {E : Abort → World Key → Prop}
    (hE : E .crash w.tail) : wp (dbCall ends f) Q E w := by
  simp only [dbCall, wp_bind, wp_nextOutcome, hc]
  exact hE

theorem signReserved_crashes (hc : ∀ n, 1 ≤ n → (w.outcomes n).db = .crashes)
    (he : ∀ n, (w.outcomes n).erase = .crashes) (ref : QuantumKeyRef)
    (inMemory : Bool) (reservedIndex : Nat) (sighash : Uint256) :
    wp (signReserved env ref inMemory mgr reservedIndex sighash)
      (fun r w' => r = none ∧ w'.db = w.db ∧ (w'.outcomes 0).erase = .crashes)
      (fun _ w' => w'.db = w.db) w := by
  refine wp_ite (fun _ => ⟨rfl, rfl, he 2⟩) fun _ => ?_
  rw [wp_bind, wp_nextOutcome]
  cases QuantumSafeManager.getXmssIndex env.lib _ _ with
  | none => exact ⟨rfl, rfl, he 3⟩
  | some postSignIndex =>
    refine wp_ite (fun _ => ⟨rfl, rfl, he 3⟩) fun _ => ?_
    rw [wp_bind, runWithinTxn, wp_bind]
    exact wp_dbCall_of_crashes (hc 3 (by omega)) rfl

theorem signWithManager_crashes (hpending : w.db.quantumPending = none)
    (hprogram : programFromManager env mgr = some program)
    (hs : ∀ n ≤ 3, (w.outcomes n).db = .succeeds) (hc : ∀ n, 5 ≤ n → (w.outcomes n).db = .crashes)
    (he : ∀ n, (w.outcomes n).erase = .crashes) (ref : QuantumKeyRef) (inMemory : Bool) (sighash : Uint256) :
    wp (signWithManager env ref inMemory mgr program sighash) (fun _ _ => False)
      (fun _ w' => w'.db.quantumPending ≠ none) w := by
  obtain ⟨sk, xp, ss, sp, hmgr⟩ := keys_of_programFromManager hprogram
  have hindex : mgr.getXmssIndex env.lib (w.outcomes 0).indexRead =
      some (sk.getIndex env.lib (w.outcomes 0).indexRead) := by
    rw [hmgr]
    rfl
  have hrecover : wp (recoverPendingXmssDb env mgr) (fun ok w' => ok = true ∧ w' = w)
      (fun _ _ => False) w := by
    simp only [recoverPendingXmssDb, wp_bind, wp_get, hpending]
    exact ⟨rfl, rfl⟩
  rw [signWithManager, wp_bind]
  refine wp_mono hrecover ?_ fun _ _ he => he.elim
  rintro _ _ ⟨rfl, rfl⟩
  rw [if_pos rfl, if_neg (not_not.mpr hprogram), wp_bind, wp_nextOutcome]
  simp only [hindex, runWithinTxn, wp_bind]
  refine wp_dbWrite_of_succeeds (hs 1 (by omega)) ?_
  rw [if_pos rfl, wp_bind, wp_get, wp_restoringDb, wp_bind]
  refine wp_dbWrite_of_succeeds (hs 2 (by omega)) ?_
  refine wp_dbWrite_of_succeeds (hs 3 (by omega)) ?_
  rw [if_pos rfl, wp_bind]
  refine wp_mono (signReserved_crashes (fun n hn => hc (n + 4) (by omega)) (fun n => he (n + 4)) ref inMemory _ sighash) ?_ ?_
  · rintro _ w' ⟨rfl, hdb, hcrash⟩
    rw [wp_bind]
    refine wp_dbCall_of_crashes hcrash ?_
    simp [hdb, World.modifyDb]
  · intro _ w' hdb
    simp [hdb, World.modifyDb]

theorem signWithManager_erases {pending current : Nat} {o : IndexReadOutcome}
    (hs : DbSucceeds w.outcomes) (ho : (w.outcomes 0).indexRead = o)
    (hpending : w.db.quantumPending = some pending) (hcurrent : mgr.getXmssIndex env.lib o = some current)
    (hlt : pending < current) (ref : QuantumKeyRef) (inMemory : Bool) (sighash : Uint256) :
    wp (signWithManager env ref inMemory mgr program sighash)
      (fun _ w' => w'.db.quantumPending = none) (fun _ _ => False) w := by
  have hrecover : wp (recoverPendingXmssDb env mgr)
      (fun ok w' => ok = true ∧ Later w w' ∧ w'.db.quantumPending = none) (fun _ _ => False) w := by
    simp only [recoverPendingXmssDb, wp_bind, wp_get, hpending, wp_nextOutcome, ho, hcurrent]
    rw [if_neg (by simp; omega), wp_bind]
    exact wp_eraseQuantumPending (hs 1).2 ⟨rfl, ⟨2, rfl⟩, rfl⟩
  exact signWithManager_leaves_none hs.leavesNone hrecover ref inMemory sighash

theorem not_refuses_of_uses (hl : w.wallet.isLocked = true) {ref : QuantumKeyRef}
    {o : KeygenOutcome} (hfind : findQuantumKeyForProgram w program = some ref)
    (hkey : keyAtHand env w ref program o = some mgr) (huses : Uses env w.db program mgr)
    (sighash : Uint256) : ∃ outcomes, ¬ Refuses env w sighash program.val outcomes := by
  rw [← signingKey_of_locked hl] at hkey
  have hrule : ∀ {Q : Option QuantumSignature → World Key → Prop} {E : Abort → World Key → Prop}
      (outcomes : Nat → Outcome), (outcomes 0).keygen = o →
      (∀ inMemory k, k ≤ 1 → wp (signWithManager env ref inMemory mgr program sighash) Q E
        { w with outcomes := fun n => outcomes (n + k) }) →
      wp (signQuantumTransactionSighash env sighash program.val) Q E { w with outcomes := outcomes } := by
    intro Q E outcomes ho hsign
    refine wp_signQuantumTransactionSighash (fun hnone k => ?_) ?_
    · exact absurd (ho ▸ hkey) (hnone program ref mgr (witnessProgramOf_val program) hfind)
    · intro program' ref' mgr' inMemory k hprogram' hfind' hkey' _ hk
      obtain rfl := Option.some.inj ((witnessProgramOf_val program).symm.trans hprogram')
      obtain rfl := Option.some.inj (hfind.symm.trans hfind')
      obtain rfl := Option.some.inj (hkey.symm.trans (ho ▸ hkey'))
      exact hsign inMemory k hk
  rcases huses with ⟨hpending, hprogram⟩ | ⟨pending, read, current, hpending, hcurrent, hlt⟩
  · refine ⟨crashingOutcomes o, fun hrefuses => ?_⟩
    have hcrash := hrule (Q := fun _ _ => False) (E := fun _ w' => w'.db.quantumPending ≠ none)
      (crashingOutcomes o) rfl fun inMemory k hk => by
        refine signWithManager_crashes (w := { w with outcomes := fun n => crashingOutcomes o (n + k) })
          hpending hprogram (fun n hn => ?_) (fun n hn => ?_) (fun _ => rfl) ref inMemory sighash
        · simp only [crashingOutcomes]
          rw [if_pos (by omega)]
        · simp only [crashingOutcomes]
          rw [if_neg (by omega)]
    simp only [wp] at hcrash
    simp only [Refuses] at hrefuses
    split at hcrash
    next => exact hcrash
    next hrun =>
      rw [hrun] at hrefuses
      exact hcrash (hrefuses.2 ▸ hpending)
  · refine ⟨lastingOutcomes o read, fun hrefuses => ?_⟩
    have herase := hrule (Q := fun _ w' => w'.db.quantumPending = none) (E := fun _ _ => False)
      (lastingOutcomes o read) rfl fun inMemory k hk =>
        signWithManager_erases (w := { w with outcomes := fun n => lastingOutcomes o read (n + k) })
          (fun _ => ⟨rfl, rfl⟩) rfl hpending hcurrent hlt ref inMemory sighash
    simp only [wp] at herase
    simp only [Refuses] at hrefuses
    split at herase
    next hrun =>
      rw [hrun] at hrefuses
      rw [hrefuses.2, hpending] at herase
      cases herase
    next => exact herase

/-- However a run came to end with the wallet encrypted and locked, signing is
refused for every program and leaves the database alone exactly when no key that
is at hand without the master key is good for anything. -/
theorem locked_refuses_iff (env : WalletEnv Key) (keypoolSize : Nat) (outcomes : Nat → Outcome)
    (es : List WalletEvent) :
    let w := walletRun env (World.new Key keypoolSize outcomes) es
    w.wallet.isLocked = true →
      ((∀ sighash outputProgram outcomes', Refuses env w sighash outputProgram outcomes') ↔
        NothingAtHand env w) := by
  intro w hl
  constructor
  · intro hrefuses program ref mgr o hfind hkey huses
    obtain ⟨outcomes', hnot⟩ := not_refuses_of_uses hl hfind hkey huses Uint256.zero
    exact hnot (hrefuses _ _ _)
  · exact fun h sighash outputProgram outcomes' =>
      refuses_of_nothingAtHand hl h sighash outputProgram outcomes'
end

def sampleEncryptedEvents : List WalletEvent :=
  sampleAddressEvents ++ [⟨.encrypt [1], sampleSucceeds⟩]

theorem sampleEncrypted_isLocked :
    (walletRun sampleWalletEnv (World.new UInt8 1 sampleSucceeds) sampleEncryptedEvents).wallet.isLocked =
      true := by decide +kernel

theorem sampleEncrypted_signs :
    Signs sampleWalletEnv (walletRun sampleWalletEnv (World.new UInt8 1 sampleSucceeds)
      sampleEncryptedEvents) Uint256.zero sampleProgram.val sampleSucceeds := by
  rw [signs_iff_isSome]
  decide +kernel

/-- A wallet that is encrypted and locked signs for its first address. -/
theorem locked_wallet_signs :
    let w := walletRun sampleWalletEnv (World.new UInt8 1 sampleSucceeds) sampleEncryptedEvents
    w.wallet.isCrypted = true ∧ w.wallet.isLocked = true ∧
      Signs sampleWalletEnv w Uint256.zero sampleProgram.val sampleSucceeds :=
  ⟨by decide +kernel, sampleEncrypted_isLocked, sampleEncrypted_signs⟩

theorem locked_first_address_at_hand :
    let w := walletRun sampleWalletEnv (World.new UInt8 1 sampleSucceeds) sampleEncryptedEvents
    w.wallet.isLocked = true ∧ ¬ NothingAtHand sampleWalletEnv w := by
  have hiff := locked_refuses_iff sampleWalletEnv 1 sampleSucceeds sampleEncryptedEvents
  have hlocked := sampleEncrypted_isLocked
  have hsigns := sampleEncrypted_signs
  exact ⟨hlocked, fun h => ((hiff hlocked).mpr h _ _ _).not_signs hsigns⟩

end Byze
