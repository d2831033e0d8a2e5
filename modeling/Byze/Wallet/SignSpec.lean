import Byze.Wallet.Mnemonic

/-! When signing succeeds: the key that a program is signed with, and what has
to hold of it where every call outside the wallet's code succeeds. -/

namespace Byze
open StateWp QuantumSafeManager

structure Outcome.Succeeds (o : Outcome) : Prop where
  db : o.db = .succeeds
  erase : o.erase = .succeeds
  keygen : o.keygen = ⟨.succeeds, .succeeds⟩
  sign : o.sign = ⟨true, .succeeds, true⟩
  indexRead : o.indexRead = .succeeds

def AllSucceed (outcomes : Nat → Outcome) : Prop := ∀ n, (outcomes n).Succeeds

/-- Every call succeeds that a signature depends on to be made and stored, which
leaves out its SPHINCS+ half. -/
structure Outcome.Proceeds (o : Outcome) : Prop where
  db : o.db = .succeeds
  erase : o.erase = .succeeds
  keygen : o.keygen = ⟨.succeeds, .succeeds⟩
  remainingRead : o.sign.remainingRead = true
  xmss : o.sign.xmss = .succeeds
  indexRead : o.indexRead = .succeeds

def AllProceed (outcomes : Nat → Outcome) : Prop := ∀ n, (outcomes n).Proceeds

def DbSucceeds (outcomes : Nat → Outcome) : Prop :=
  ∀ n, (outcomes n).db = .succeeds ∧ (outcomes n).erase = .succeeds

/-- A leaf is left, in memory and as stored, and signing does not fall behind
what is stored. -/
def XmssPrivateKey.LeafLeft {Key : Type} (lib : Liboqs Key) (sk : XmssPrivateKey Key) : Prop :=
  ∃ stored s, lib.stflDeserialize sk.secretKey = some stored ∧ stored.index < xmssLeaves ∧
    sk.publicKey.isSome ∧ sk.currentSecret lib = some s ∧ s.index < xmssLeaves ∧ stored.index ≤ s.index

def QuantumSafeManager.LeafLeft {Key : Type} (lib : Liboqs Key) (m : QuantumSafeManager Key) : Prop :=
  ∃ sk, m.xmssPrivate = some sk ∧ sk.LeafLeft lib

section
variable {Key : Type} (env : WalletEnv Key)

def storedOrDerivedKey (w : World Key) (ref : QuantumKeyRef) (o : KeygenOutcome) :
    Option (QuantumSafeManager Key) :=
  match ref.dbKeys.findSome? w.db.readQuantum with
  | some packed => unpackQuantumBlobToManager env w.wallet.vMasterKey packed
  | none => (tryGetTaprootDescriptorRootExtKey env w.wallet).bind fun root => derivedKey env root ref o

def keyInMemory (w : World Key) (ref : QuantumKeyRef) (program : Uint256) : Option (QuantumSafeManager Key) :=
  if ref = ⟨false, 0⟩ ∧ w.wallet.quantumProgramBytes = some program then w.wallet.quantumManager
  else none

def signingKey (w : World Key) (ref : QuantumKeyRef) (program : Uint256) (o : KeygenOutcome) :
    Option (QuantumSafeManager Key) :=
  (keyInMemory w ref program).or (storedOrDerivedKey env w ref o)

def PendingBelow (db : WalletDb) (mgr : QuantumSafeManager Key) : Prop :=
  ∀ pending, db.quantumPending = some pending →
    ∃ current, mgr.getXmssIndex env.lib .succeeds = some current ∧ pending < current

/-- The key that the reference leads to belongs to the program, is past any
signature that was begun, has a leaf left and can be stored. -/
def KeyReady (w : World Key) (ref : QuantumKeyRef) (program : Uint256) : Prop :=
  ∃ mgr, signingKey env w ref program ⟨.succeeds, .succeeds⟩ = some mgr ∧
    programFromManager env mgr = some program ∧ PendingBelow env w.db mgr ∧ mgr.LeafLeft env.lib ∧
    w.wallet.Seals

/-- The wallet finds a key for the program, and it is ready. -/
def ReadyToSign (w : World Key) (outputProgram : Bytes) : Prop :=
  ∃ program ref, witnessProgramOf outputProgram = some program ∧
    findQuantumKeyForProgram w program = some ref ∧ KeyReady env w ref program

variable {lib : Liboqs Key} {mgr : QuantumSafeManager Key} {sk : XmssPrivateKey Key} {stored : XmssSecret Key}

theorem XmssPrivateKey.getIndex_succeeds (h : lib.stflDeserialize sk.secretKey = some stored) :
    sk.getIndex lib .succeeds = stored.index := by
  have hle := stored.index_le
  simp only [getIndex, h, XmssSecret.remaining]
  omega

theorem witnessProgramOf_val (program : Uint256) : witnessProgramOf program.val = some program :=
  dif_pos program.property

theorem XmssPrivateKey.getIndex_le (lib : Liboqs Key) (sk : XmssPrivateKey Key) (o : IndexReadOutcome) :
    sk.getIndex lib o ≤ xmssLeaves := by
  rw [getIndex]
  cases lib.stflDeserialize sk.secretKey with
  | none => exact Nat.zero_le _
  | some s =>
    cases o with
    | succeeds => exact Nat.sub_le _ _
    | fails => exact Nat.zero_le _
    | remainingFails => exact le_rfl

theorem XmssPrivateKey.LeafLeft.sign (h : sk.LeafLeft lib) (message : Uint256) :
    ∃ s hlt, sk.currentSecret lib = some s ∧
      (∀ stored, lib.stflDeserialize sk.secretKey = some stored → stored.index ≤ s.index) ∧
      sk.sign lib message .succeeds = (lib.stflSign s.key s.index message.val,
        { sk with stflSecret := some (s.advance hlt), secretKey := lib.stflSerialize (s.advance hlt) },
        some (s.key, s.index)) := by
  obtain ⟨stored, s, hstored, -, hpk, hs, hlt, hle⟩ := h
  have hne : sk.secretKey ≠ [] := by
    intro hnil
    rw [hnil, lib.stflDeserialize_nil] at hstored
    cases hstored
  have hpk' : ¬ sk.publicKey.isNone = true := by simpa [Option.isSome_iff_ne_none] using hpk
  refine ⟨s, hlt, hs, fun t ht => ?_, ?_⟩
  · rw [hstored] at ht
    obtain rfl := Option.some.inj ht
    exact hle
  · simp [XmssPrivateKey.sign, hne, hpk', hs, hlt]

theorem XmssPrivateKey.getIndex_sign_le (hstored : lib.stflDeserialize sk.secretKey = some stored)
    (hlt : stored.index < xmssLeaves) (h : ¬ sk.LeafLeft lib) (message : Uint256) :
    (sk.sign lib message .succeeds).2.1.getIndex lib .succeeds ≤ stored.index := by
  have hsame := (getIndex_succeeds hstored).le
  by_cases hg : sk.secretKey = [] ∨ sk.publicKey.isNone ∨
      (sk.stflSecret.isNone ∧ XmssSignOutcome.succeeds = .loadFails)
  · simp only [XmssPrivateKey.sign, if_pos hg]
    exact hsame
  simp only [XmssPrivateKey.sign, if_neg hg]
  have hpk : sk.publicKey.isSome := by
    push Not at hg
    simpa [Option.isSome_iff_ne_none] using hg.2.1
  cases hs : sk.currentSecret lib with
  | none => exact hsame
  | some s =>
    by_cases hs' : s.index < xmssLeaves
    · simp only [dif_pos hs']
      have hback : ¬ stored.index ≤ s.index := fun hle =>
        h ⟨stored, s, hstored, hlt, hpk, hs, hs', hle⟩
      rw [getIndex_succeeds (lib.stflDeserialize_serialize _)]
      simp only [XmssSecret.advance]
      omega
    · simp only [dif_neg hs']
      exact hsame

theorem sign_sphincsPlus_length {ss : SphincsPrivateKey} (h : mgr.sphincsPrivate = some ss)
    (message : Uint256) (o : SignOutcome) :
    (mgr.sign lib message .sphincsPlus o).1.length = sphincsSignatureSize := by
  rw [sign_sphincsPlus_fst lib h]
  exact (ss.sign lib message o.sphincs).property

theorem sign_xmss_refused (hsk : mgr.xmssPrivate = some sk)
    (h : ∀ stored, lib.stflDeserialize sk.secretKey = some stored → ¬ stored.index < xmssLeaves)
    (message : Uint256) (o : SignOutcome) : mgr.sign lib message .xmss o = ([], mgr, none) := by
  have hrem : sk.getRemainingSignatures lib o.remainingRead = 0 := by
    simp only [XmssPrivateKey.getRemainingSignatures]
    cases hd : lib.stflDeserialize sk.secretKey with
    | none => rfl
    | some stored =>
      have := h stored hd
      have hrem : stored.remaining = 0 := by
        rw [XmssSecret.remaining]
        omega
      simp [hrem]
  simp [sign, hsk, hrem]

theorem sign_xmss_of_lt (hsk : mgr.xmssPrivate = some sk)
    (hstored : lib.stflDeserialize sk.secretKey = some stored) (hlt : stored.index < xmssLeaves) (message : Uint256) {o : SignOutcome}
    (hr : o.remainingRead = true) (ho : o.xmss = .succeeds) :
    mgr.sign lib message .xmss o = ((sk.sign lib message .succeeds).1.val,
      { mgr with xmssPrivate := some (sk.sign lib message .succeeds).2.1 },
      (sk.sign lib message .succeeds).2.2) := by
  have hrem : sk.getRemainingSignatures lib true ≠ 0 := by
    simp only [XmssPrivateKey.getRemainingSignatures, hstored]
    exact Nat.sub_ne_zero_of_lt hlt
  simp [sign, hsk, hr, ho, hrem]

variable {env} {w : World Key}

theorem loadQuantumManagerForKey_eq (ref : QuantumKeyRef) : wp (loadQuantumManagerForKey env ref)
      (fun r w' => r = storedOrDerivedKey env w ref (w.outcomes 0).keygen ∧
        ∃ k ≤ 1, w' = { w with outcomes := fun n => w.outcomes (n + k) }) (fun _ _ => False) w := by
  have hderive : ref.dbKeys.findSome? w.db.readQuantum = none → wp (deriveFromRoot env ref)
        (fun r w' => r = storedOrDerivedKey env w ref (w.outcomes 0).keygen ∧
          ∃ k ≤ 1, w' = { w with outcomes := fun n => w.outcomes (n + k) }) (fun _ _ => False) w := by
    intro hnone
    simp only [deriveFromRoot, wp_bind, wp_get, storedOrDerivedKey, hnone]
    cases tryGetTaprootDescriptorRootExtKey env w.wallet with
    | none => exact ⟨rfl, 0, Nat.zero_le _, rfl⟩
    | some root => exact ⟨rfl, 1, le_rfl, rfl⟩
  obtain ⟨change, index⟩ := ref
  cases change with
  | true =>
    simp only [loadQuantumManagerForKey, if_true, wp_bind, wp_get]
    cases hread : w.db.readQuantum (.changeIndexState index) with
    | none => exact hderive (by simp [QuantumKeyRef.dbKeys, hread])
    | some packed => exact ⟨by simp [storedOrDerivedKey, QuantumKeyRef.dbKeys, hread], 0, Nat.zero_le _, rfl⟩
  | false =>
    simp only [loadQuantumManagerForKey, Bool.false_eq_true, if_false, loadQuantumManagerForReceiveIndex,
      wp_bind, wp_get]
    by_cases h0 : index = 0
    · subst h0
      cases hread : w.db.readQuantum (.indexState 0) with
      | some packed => exact ⟨by simp [storedOrDerivedKey, QuantumKeyRef.dbKeys, hread], 0, Nat.zero_le _, rfl⟩
      | none =>
        cases hstate : w.db.readQuantum .state with
        | some packed => exact ⟨by simp [storedOrDerivedKey, QuantumKeyRef.dbKeys, hread, hstate], 0, Nat.zero_le _, rfl⟩
        | none => exact hderive (by simp [QuantumKeyRef.dbKeys, hread, hstate])
    · cases hread : w.db.readQuantum (.indexState index) with
      | some packed => exact ⟨by simp [storedOrDerivedKey, QuantumKeyRef.dbKeys, hread, h0], 0, Nat.zero_le _, rfl⟩
      | none =>
        simp only [if_neg h0]
        exact hderive (by simp [QuantumKeyRef.dbKeys, hread, h0])

theorem wp_signQuantumTransactionSighash {sighash : Uint256} {outputProgram : Bytes}
    {Q : Option QuantumSignature → World Key → Prop} {E : Abort → World Key → Prop}
    (hnone : (∀ program ref mgr, witnessProgramOf outputProgram = some program →
        findQuantumKeyForProgram w program = some ref →
        signingKey env w ref program (w.outcomes 0).keygen ≠ some mgr) →
      ∀ k, Q none { w with outcomes := fun n => w.outcomes (n + k) })
    (hsome : ∀ program ref mgr inMemory k, witnessProgramOf outputProgram = some program →
      findQuantumKeyForProgram w program = some ref →
      signingKey env w ref program (w.outcomes 0).keygen = some mgr →
      keyInMemory w ref program = (if inMemory then some mgr else none) → k ≤ 1 →
      wp (signWithManager env ref inMemory mgr program sighash) Q E
        { w with outcomes := fun n => w.outcomes (n + k) }) :
    wp (signQuantumTransactionSighash env sighash outputProgram) Q E w := by
  simp only [signQuantumTransactionSighash, wp_bind, wp_get]
  cases hprogram : witnessProgramOf outputProgram with
  | none =>
    refine hnone (fun program _ _ h => ?_) 0
    simp [hprogram] at h
  | some program =>
    cases hfind : findQuantumKeyForProgram w program with
    | none =>
      simp only [hfind]
      refine hnone (fun program' _ _ h hfind' => ?_) 0
      obtain rfl := Option.some.inj (hprogram.symm.trans h)
      simp [hfind] at hfind'
    | some ref =>
      simp only [hfind]
      cases hmem : keyInMemory w ref program with
      | some mgr =>
        have hkey : signingKey env w ref program (w.outcomes 0).keygen = some mgr := by
          rw [signingKey, hmem]
          rfl
        have hsign := hsome program ref mgr true 0 hprogram hfind hkey hmem (Nat.zero_le _)
        rw [keyInMemory] at hmem
        rw [hmem]
        exact hsign
      | none =>
        have hkey : signingKey env w ref program (w.outcomes 0).keygen =
            storedOrDerivedKey env w ref (w.outcomes 0).keygen := by
          rw [signingKey, hmem]
          rfl
        have hload := hmem
        rw [keyInMemory] at hload
        rw [hload, wp_bind]
        refine wp_mono (loadQuantumManagerForKey_eq ref) ?_ fun _ _ he => he.elim
        rintro loaded _ ⟨hloaded, k, hk, rfl⟩
        rw [← hkey] at hloaded
        cases loaded with
        | none =>
          refine hnone (fun program' ref' mgr h hfind' hkey' => ?_) k
          obtain rfl := Option.some.inj (hprogram.symm.trans h)
          obtain rfl := Option.some.inj (hfind.symm.trans hfind')
          cases hloaded.trans hkey'
        | some mgr => exact hsome program ref mgr false k hprogram hfind hloaded.symm hmem hk

variable {E : Abort → World Key → Prop} {Q : Bool → World Key → Prop} {outcomes : Nat → Outcome} {f : WalletDb → WalletDb}

theorem AllSucceed.allProceed (h : AllSucceed outcomes) :
    AllProceed outcomes := fun n =>
  ⟨(h n).db, (h n).erase, (h n).keygen, by rw [(h n).sign], by rw [(h n).sign], (h n).indexRead⟩

theorem AllProceed.tail (h : AllProceed outcomes) : AllProceed fun n => outcomes (n + 1) := fun n => h (n + 1)

theorem AllProceed.dbSucceeds (h : AllProceed outcomes) :
    DbSucceeds outcomes := fun n => ⟨(h n).db, (h n).erase⟩

theorem AllProceed.later {w' : World Key} (h : AllProceed w.outcomes) (hl : Later w w') :
    AllProceed w'.outcomes := by
  obtain ⟨k, hk⟩ := hl
  intro n
  rw [hk]
  exact h (n + k)

theorem wp_dbCall_of_succeeds {ends : Outcome → DbOutcome} (hs : ends (w.outcomes 0) = .succeeds)
    (hQ : Q true (w.tail.modifyDb f)) :
    wp (dbCall ends f) Q E w := by
  simp only [dbCall, wp_bind, wp_nextOutcome, hs]
  exact hQ

theorem wp_dbWrite_of_succeeds (hs : (w.outcomes 0).db = .succeeds)
    (hQ : Q true (w.tail.modifyDb f)) :
    wp (dbWrite f) Q E w := wp_dbCall_of_succeeds hs hQ

theorem wp_eraseQuantumPending (hs : (w.outcomes 0).erase = .succeeds)
    (hQ : Q true (w.tail.modifyDb
      fun db => { db with quantumPending := none })) : wp eraseQuantumPending Q E w :=
  wp_dbCall_of_succeeds hs hQ

theorem AllProceed.wp_dbWrite (h : AllProceed w.outcomes)
    (hQ : Q true (w.tail.modifyDb f)) :
    wp (dbWrite f) Q E w :=
  wp_dbWrite_of_succeeds (h 0).db hQ

theorem AllProceed.wp_runWithinTxn (h : AllProceed w.outcomes) {func : WalletM Key Bool}
    {P : World Key → Prop}
    (hf : wp func (fun ok w' => ok = true ∧ AllProceed w'.outcomes ∧ P w') (fun _ _ => False) w.tail)
    (hP : ∀ w' : World Key, P w' → P w'.tail) :
    wp (runWithinTxn func) (fun ok w' => ok = true ∧ AllProceed w'.outcomes ∧ P w') E w := by
  simp only [runWithinTxn, wp_bind]
  refine h.wp_dbWrite ?_
  rw [if_pos rfl, wp_bind, wp_get, wp_restoringDb, wp_bind]
  refine wp_mono hf ?_ fun _ _ he => he.elim
  rintro _ w' ⟨rfl, hs, hw'⟩
  exact hs.wp_dbWrite ⟨rfl, hs.tail, hP w' hw'⟩

theorem keys_of_programFromManager {program : Uint256} (h : programFromManager env mgr = some program) :
    ∃ sk xp ss sp, mgr = ⟨some sk, some xp, some ss, some sp, mgr.currentAlgo⟩ := by
  obtain ⟨xmssPrivate, xmssPublic, sphincsPrivate, sphincsPublic, algo⟩ := mgr
  cases xmssPrivate <;> cases xmssPublic <;> cases sphincsPrivate <;> cases sphincsPublic <;>
    simp [programFromManager, getDualPublicKeyBundle] at h ⊢

theorem persistQuantumKeyPacked_succeeds (hs : DbSucceeds w.outcomes) (ref : QuantumKeyRef) (enc : Bool)
    (origin : UInt8) (program : Uint256) (payload : Bytes) :
    wp (persistQuantumKeyPacked ref enc origin program payload)
      (fun ok w' => ok = true ∧ Later w w') (fun _ _ => False) w := by
  refine wp_ite (fun _ => wp_dbWrite_of_succeeds (hs 0).1 ⟨rfl, 1, rfl⟩) fun _ => ?_
  rw [persistQuantumManagerPacked, wp_bind]
  refine wp_dbWrite_of_succeeds (hs 0).1 ?_
  rw [if_pos rfl]
  exact wp_ite (fun _ => wp_dbWrite_of_succeeds (hs 1).1 ⟨rfl, 2, rfl⟩) fun _ => ⟨rfl, 1, rfl⟩

section
variable (hs : AllProceed w.outcomes) {xp : XmssPublicKey} {ss : SphincsPrivateKey} {sp : SphincsPublicKey}
  {algo : QuantumAlgorithm} {s : XmssSecret Key} (hsk : sk.secretKey = env.lib.stflSerialize s)

include hsk in
theorem cloneQuantumManager_isSome :
    (cloneQuantumManager ⟨some sk, some xp, some ss, some sp, algo⟩).isSome = true := by
  have hne : sk.secretKey ≠ [] := hsk ▸ env.lib.stflSerialize_ne_nil s
  have hle := hsk ▸ env.lib.stflSerialize_length_le s
  have hser : serializeDualKeys
      (⟨some sk, some xp, some ss, some sp, algo⟩ : QuantumSafeManager Key) = some _ := rfl
  rw [cloneQuantumManager, hser, Option.bind_some, deserialize_serializeDualKeys hne hle hser]
  rfl

include hs

include hsk in
theorem persistSigned_succeeds (hseal : w.wallet.Seals) (ref : QuantumKeyRef) :
    wp (persistSigned env ref ⟨some sk, some xp, some ss, some sp, algo⟩)
      (fun ok w' => ok = true ∧ AllProceed w'.outcomes ∧ True) (fun _ _ => False) w := by
  have hclone : (cloneQuantumManager
      (⟨some sk, some xp, some ss, some sp, algo⟩ : QuantumSafeManager Key)).isSome = true :=
    cloneQuantumManager_isSome hsk
  have hbundle : xp.val ++ sp.val ≠ [] := by
    intro hnil
    have hlen := xp.property
    rw [(List.append_eq_nil_iff.mp hnil).1] at hlen
    exact absurd hlen (by decide)
  simp only [persistSigned, wp_bind, wp_get, serializeDualKeys]
  obtain ⟨payload, hpayload⟩ := Option.isSome_iff_exists.mp ((sealPayload_isSome_iff env w.wallet
    (dualKeysHeader ++ (writeBlob sk.secretKey ++ (writeBlob xp.val ++ (writeBlob ss.secretKey.val ++
      writeBlob sp.val))))).mpr hseal)
  have hprogram : programFromManager env
      (⟨some sk, some xp, some ss, some sp, algo⟩ : QuantumSafeManager Key) =
        some (env.hashes.sha256 (xp.val ++ sp.val)) := if_neg hbundle
  simp only [hpayload, hprogram, wp_bind]
  refine wp.imp (persistQuantumKeyPacked_succeeds hs.dbSucceeds ref _ _ _ _) ?_
  rintro _ w₁ ⟨rfl, hlater⟩
  have hs₁ := hs.later hlater
  rw [if_pos rfl, wp_bind]
  refine wp_eraseQuantumPending (hs₁ 0).erase (wp_ite (fun _ => ?_) fun _ => ⟨rfl, hs₁.tail, trivial⟩)
  exact ⟨hclone, hs₁.tail, trivial⟩

include hsk in
theorem commitSigned_succeeds (ref : QuantumKeyRef) :
    wp (runWithinTxn (persistSigned env ref ⟨some sk, some xp, some ss, some sp, algo⟩))
      (fun ok w' => (ok = true ↔ w.wallet.Seals) ∧ AllProceed w'.outcomes) (fun _ _ => False) w := by
  by_cases hseal : w.wallet.Seals
  · have hbody : wp (persistSigned env ref ⟨some sk, some xp, some ss, some sp, algo⟩) _ _
        w.tail :=
      persistSigned_succeeds (w := w.tail) hs.tail hsk hseal ref
    exact wp.imp (hs.wp_runWithinTxn hbody fun _ h => h) (fun _ _ h => ⟨iff_of_true h.1 hseal, h.2.1⟩)
  · -- Nothing is stored unsealed, and the transaction is rolled back.
    have hnone : ∀ plain, sealPayload env w.wallet plain = none := fun plain => by
      rwa [← Option.not_isSome_iff_eq_none, sealPayload_isSome_iff]
    simp only [runWithinTxn, wp_bind]
    refine hs.wp_dbWrite ?_
    rw [if_pos rfl, wp_bind, wp_get, wp_restoringDb, wp_bind, persistSigned, wp_bind, wp_get]
    simp only [serializeDualKeys, World.modifyDb, hnone]
    exact ⟨iff_of_false Bool.false_ne_true hseal, hs.tail⟩

theorem signReserved_succeeds (ref : QuantumKeyRef) (inMemory : Bool) (sighash : Uint256) :
    wp (signReserved env ref inMemory ⟨some sk, some xp, some ss, some sp, algo⟩
        (sk.getIndex env.lib .succeeds) sighash)
      (fun r w' => (r.isSome = true ↔ sk.LeafLeft env.lib ∧ w.wallet.Seals) ∧ AllProceed w'.outcomes)
      (fun _ _ => False) w := by
  rw [signReserved, wp_bind, wp_nextOutcome]
  by_cases hlt : ∀ stored, env.lib.stflDeserialize sk.secretKey = some stored → ¬ stored.index < xmssLeaves
  · rw [sign_xmss_refused rfl hlt, wp_bind]
    refine ⟨iff_of_false (by simp) ?_, hs.tail.tail⟩
    rintro ⟨⟨stored, _, hstored, hstored_lt, -⟩, -⟩
    exact hlt stored hstored hstored_lt
  push Not at hlt
  obtain ⟨stored, hstored, hlt⟩ := hlt
  rw [sign_xmss_of_lt rfl hstored hlt sighash (hs 0).remainingRead (hs 0).xmss, wp_bind, modifyWallet, wp_modify, wp_bind,
    wp_nextOutcome]
  rw [if_neg]
  rotate_left
  · simp only [not_or, not_not]
    exact ⟨(sk.sign env.lib sighash .succeeds).1.property, sign_sphincsPlus_length rfl sighash _⟩
  rw [wp_bind, wp_nextOutcome]
  have hs₃ := hs.tail.tail.tail
  have hread := (hs 2).indexRead
  simp only [World.modifyWallet, hread, getXmssIndex, Option.map_some, setXmssIndex, Bool.not_false,
    Bool.and_true, decide_eq_true_eq]
  rw [XmssPrivateKey.getIndex_succeeds hstored]
  by_cases hleft : sk.LeafLeft env.lib
  · obtain ⟨s, hslt, -, hle, hsign⟩ := hleft.sign sighash
    have hadv : stored.index + 1 ≤ (s.advance hslt).index := Nat.succ_le_succ (hle stored hstored)
    rw [hsign, XmssPrivateKey.getIndex_succeeds (env.lib.stflDeserialize_serialize _),
      if_neg (Nat.not_lt.mpr hadv), wp_bind]
    refine wp.imp (commitSigned_succeeds hs₃ rfl ref) ?_
    rintro ok w' ⟨hok, hs'⟩
    have hsame : ok = true ↔ w.wallet.Seals := by cases inMemory <;> exact hok
    rw [and_iff_right hleft, ← hsame]
    cases ok <;> exact ⟨by simp, hs'⟩
  · have hle := XmssPrivateKey.getIndex_sign_le hstored hlt hleft sighash
    rw [if_pos (Nat.lt_succ_of_le hle)]
    exact ⟨iff_of_false (by simp) fun h => hleft h.1, hs₃⟩
end

theorem recoverPendingXmssDb_succeeds (hs : AllProceed w.outcomes) (mgr : QuantumSafeManager Key) :
    wp (recoverPendingXmssDb env mgr)
      (fun ok w' => (ok = true ↔ PendingBelow env w.db mgr) ∧ AllProceed w'.outcomes ∧
        w'.wallet = w.wallet) (fun _ _ => False) w := by
  simp only [recoverPendingXmssDb, wp_bind, wp_get, PendingBelow]
  cases w.db.quantumPending with
  | none => exact ⟨iff_of_true rfl (by simp), hs, rfl⟩
  | some pending =>
    simp only [wp_bind, wp_nextOutcome, (hs 0).indexRead]
    cases hindex : mgr.getXmssIndex env.lib .succeeds with
    | none =>
      refine ⟨iff_of_false (by simp) fun h => ?_, hs.tail, rfl⟩
      obtain ⟨current, hcurrent, -⟩ := h pending rfl
      cases hcurrent
    | some current =>
      simp only [setXmssIndex, Bool.not_false, Bool.and_true, decide_eq_true_eq]
      refine wp_ite (fun hle => ?_) fun hlt => ?_
      · refine ⟨iff_of_false (by simp) fun h => ?_, hs.tail, rfl⟩
        obtain ⟨_, hcurrent, hlt⟩ := h pending rfl
        obtain rfl := Option.some.inj hcurrent
        omega
      · rw [wp_bind]
        refine wp_eraseQuantumPending (hs.tail 0).erase ⟨iff_of_true rfl ?_, hs.tail.tail, rfl⟩
        intro _ hpending
        obtain rfl := Option.some.inj hpending
        exact ⟨current, rfl, Nat.lt_of_not_le hlt⟩

theorem signWithManager_of_recover {passes : Prop} {mgr : QuantumSafeManager Key}
    (hrecover : wp (recoverPendingXmssDb env mgr)
      (fun ok w' => (ok = true ↔ passes) ∧ (ok = true → AllProceed w'.outcomes) ∧ w'.wallet = w.wallet)
      (fun _ _ => False) w) (ref : QuantumKeyRef) (inMemory : Bool) (program sighash : Uint256) :
    wp (signWithManager env ref inMemory mgr program sighash) (fun r _ => r.isSome = true ↔
        programFromManager env mgr = some program ∧ passes ∧ mgr.LeafLeft env.lib ∧ w.wallet.Seals)
      (fun _ _ => False) w := by
  rw [signWithManager, wp_bind]
  refine wp.imp hrecover ?_
  rintro recovered w₁ ⟨hrecovered, hs₁, hwallet₁⟩
  refine wp_ite (fun hok => ?_) fun hok => ?_
  swap
  · exact iff_of_false (by simp) fun h => hok (hrecovered.mpr h.2.1)
  replace hs₁ := hs₁ hok
  refine wp_ite (fun hprogram => ?_) fun hprogram => ?_
  · exact iff_of_false (by simp) fun h => hprogram h.1
  rw [not_not] at hprogram
  obtain ⟨sk, xp, ss, sp, hmgr⟩ := keys_of_programFromManager hprogram
  generalize mgr.currentAlgo = algo at hmgr
  subst hmgr
  rw [wp_bind, wp_nextOutcome]
  simp only [getXmssIndex, Option.map_some, (hs₁ 0).indexRead, wp_bind]
  refine wp_mono (hs₁.tail.wp_runWithinTxn (P := fun w' => w'.wallet = w.wallet)
    (hs₁.tail.tail.wp_dbWrite ⟨rfl, hs₁.tail.tail.tail, hwallet₁⟩) fun _ h => h) ?_ fun _ _ he => he
  rintro _ w₂ ⟨rfl, hs₂, hwallet₂⟩
  rw [if_pos rfl, wp_bind]
  refine wp.imp (signReserved_succeeds hs₂ ref inMemory sighash) ?_
  rintro r w₃ ⟨hr, hs₃⟩
  rw [hwallet₂] at hr
  have hleft : (r.isSome = true ↔ programFromManager env ⟨some sk, some xp, some ss, some sp, algo⟩ =
      some program ∧ passes ∧
      QuantumSafeManager.LeafLeft env.lib ⟨some sk, some xp, some ss, some sp, algo⟩ ∧
      w.wallet.Seals) := by
    rw [hr]
    constructor
    · exact fun h => ⟨hprogram, hrecovered.mp hok, ⟨sk, rfl, h.1⟩, h.2⟩
    · rintro ⟨-, -, ⟨_, hsk, h⟩, hseals⟩
      obtain rfl := Option.some.inj hsk
      exact ⟨h, hseals⟩
  cases r with
  | some signature => exact hleft
  | none =>
    rw [wp_bind]
    exact wp_eraseQuantumPending (hs₃ 0).erase hleft

/-- Signing succeeds exactly when there is a key for the program that passes the
recovery, has a leaf left and can be stored, where every later call proceeds. -/
theorem signQuantumTransactionSighash_of_recover (passes : QuantumSafeManager Key → Prop)
    (hkeygen : (w.outcomes 0).keygen = ⟨.succeeds, .succeeds⟩)
    (hrecover : ∀ k ≤ 1, ∀ mgr, wp (recoverPendingXmssDb env mgr)
      (fun ok w' => (ok = true ↔ passes mgr) ∧ (ok = true → AllProceed w'.outcomes) ∧ w'.wallet = w.wallet)
      (fun _ _ => False) { w with outcomes := fun n => w.outcomes (n + k) })
    (sighash : Uint256) (outputProgram : Bytes) :
    wp (signQuantumTransactionSighash env sighash outputProgram)
      (fun r _ => r.isSome = true ↔ ∃ program ref mgr, witnessProgramOf outputProgram = some program ∧
        findQuantumKeyForProgram w program = some ref ∧
        signingKey env w ref program ⟨.succeeds, .succeeds⟩ = some mgr ∧
        programFromManager env mgr = some program ∧ passes mgr ∧ mgr.LeafLeft env.lib ∧ w.wallet.Seals)
      (fun _ _ => False) w := by
  refine wp_signQuantumTransactionSighash (fun hnone k => ?_) fun program ref mgr inMemory k hprogram
    hfind hkey _ hk => ?_
  · refine iff_of_false (by simp) ?_
    rintro ⟨program, ref, mgr, hprogram, hfind, hkey, -⟩
    exact hnone program ref mgr hprogram hfind (hkeygen ▸ hkey)
  · refine wp_mono (signWithManager_of_recover (w := { w with outcomes := fun n => w.outcomes (n + k) })
      (hrecover k hk mgr) ref inMemory program sighash) ?_ fun _ _ he => he
    intro r _ hr
    rw [hr]
    rw [hkeygen] at hkey
    constructor
    · exact fun hrest => ⟨program, ref, mgr, hprogram, hfind, hkey, hrest⟩
    · rintro ⟨program', ref', mgr', hprogram', hfind', hkey', hrest⟩
      obtain rfl := Option.some.inj (hprogram.symm.trans hprogram')
      obtain rfl := Option.some.inj (hfind.symm.trans hfind')
      obtain rfl := Option.some.inj (hkey.symm.trans hkey')
      exact hrest

theorem signQuantumTransactionSighash_succeeds (hs : AllProceed w.outcomes)
    (sighash : Uint256) (outputProgram : Bytes) :
    wp (signQuantumTransactionSighash env sighash outputProgram)
      (fun r _ => r.isSome = true ↔ ReadyToSign env w outputProgram) (fun _ _ => False) w := by
  refine wp_mono (signQuantumTransactionSighash_of_recover (PendingBelow env w.db) (hs 0).keygen
    (fun k _ mgr => ?_) sighash outputProgram) ?_ fun _ _ he => he
  swap
  · simp only [ReadyToSign, KeyReady, exists_and_left]
    exact fun _ _ h => h
  have hs' : AllProceed fun n => w.outcomes (n + k) := fun n => hs (n + k)
  refine wp_mono (recoverPendingXmssDb_succeeds (w := { w with outcomes := fun n => w.outcomes (n + k) })
    hs' mgr) ?_ fun _ _ he => he
  rintro _ _ ⟨hok, hs, hwallet⟩
  exact ⟨hok, fun _ => hs, hwallet⟩

def Signs (env : WalletEnv Key) (w : World Key) (sighash : Uint256) (outputProgram : Bytes)
    (outcomes : Nat → Outcome) : Prop :=
  ∃ signature, ((signQuantumTransactionSighash env sighash outputProgram).run
    { w with outcomes := outcomes }).1 = .ok (some signature)

theorem signs_iff_isSome (sighash : Uint256) (outputProgram : Bytes) (outcomes : Nat → Outcome) :
    Signs env w sighash outputProgram outcomes ↔
      ((signQuantumTransactionSighash env sighash outputProgram).run
        { w with outcomes := outcomes }).1.toOption.join.isSome = true := by
  simp only [Signs]
  rcases ((signQuantumTransactionSighash env sighash outputProgram).run
    { w with outcomes := outcomes }).1 with _ | _ | _ <;> simp [Except.toOption]

theorem signs_iff (hs : AllSucceed outcomes) (sighash : Uint256) (outputProgram : Bytes) :
    Signs env w sighash outputProgram outcomes ↔ ReadyToSign env w outputProgram := by
  have h : wp (signQuantumTransactionSighash env sighash outputProgram) _ _ { w with outcomes := outcomes } :=
    signQuantumTransactionSighash_succeeds hs.allProceed sighash outputProgram
  simp only [wp] at h
  simp only [Signs]
  split at h
  next r w' hrun =>
    rw [hrun]
    refine Iff.trans ?_ h
    cases r <;> simp
  next => exact h.elim
end

def sampleSucceeds : Nat → Outcome := fun _ => .good Uint256.zero

theorem allSucceed_sample : AllSucceed sampleSucceeds := fun _ => ⟨rfl, rfl, rfl, rfl, rfl⟩

def sampleProgram : Uint256 := ⟨173 :: List.replicate 31 0, by decide⟩

def sampleAddressEvents : List WalletEvent :=
  [⟨.setup, sampleSucceeds⟩, ⟨.newAddress false, sampleSucceeds⟩]

end Byze
