import Byze.ProduceSignature
import Byze.Wallet.LeavesUsed

/-! Signing an input with a key of the wallet, and whether a witness that does
not verify has cost a leaf. What is signed is the hash of the caller's hash type,
and what is verified is the hash of the default type. -/

namespace Byze
open StateWp

/-- A signature of one message is none of another, and zero bytes are none of
any. -/
structure Liboqs.VerifiesOwnMessage {Key : Type} (lib : Liboqs Key) : Prop where
  stfl_message : ∀ k i (msg msg' : Uint256) (pk : XmssPublicKey), i < xmssLeaves →
    lib.stflVerify msg'.val (lib.stflSign k i msg.val).val pk.val = true → msg' = msg
  sig_zero : ∀ msg (pk : SphincsPublicKey), lib.sigVerify msg zeroSphincsSignature.val pk.val = false

section
variable {Key : Type} (env : WalletEnv Key) (ops : LegacyOps) (legacy : LegacySigning env.hashes)
  (creator : MutableTransactionSignatureCreator env.hashes) (program : Uint256) (sigdata : SignatureData)

def produceWalletSignature : WalletM Key SignatureData :=
  produceSignature env.lib.toOqsVerify ops (signQuantumTransactionSighash env) legacy creator
    (witnessV1Script program) sigdata

def Verifies (data : SignatureData) : Prop :=
  verifyScript env.hashes ops.toPubKeyOps standardScriptVerifyFlags
    (transactionSignatureChecker env.lib.toOqsVerify ops creator.checker) data.scriptSig
    (witnessV1Script program) (some data.scriptWitness) = .ok ()

/-- Where the call returns, its witness verifies or no leaf of the wallet has
been used. -/
def FailsClean (w : World Key) : Prop :=
  wp (produceWalletSignature env ops legacy creator program sigdata)
    (fun data w' => Verifies env ops creator program data ∨ ¬ UsesLeaf env w w') (fun _ _ => True) w

/-- A key for the program is at hand that has a leaf left, unless a pending
record keeps the wallet from signing for good. -/
def MaySign (w : World Key) : Prop :=
  (∀ pending, w.db.quantumPending = some pending → pending < xmssLeaves) ∧
    ∃ ref mgr, findQuantumKeyForProgram w program = some ref ∧
      signingKey env w ref program ⟨.succeeds, .succeeds⟩ = some mgr ∧
      programFromManager env mgr = some program ∧ mgr.LeafLeft env.lib

variable {env ops legacy creator program sigdata} {w : World Key}

theorem wp_produceWalletSignature {Q : SignatureData → World Key → Prop} {E : Abort → World Key → Prop}
    (hkept : sigdata.complete = true ∨ computeSchnorrSignatureHash creator = none → ∀ data, Q data w)
    (hsigned : ∀ sighash, sigdata.complete = false → computeSchnorrSignatureHash creator = some sighash →
      wp (signQuantumTransactionSighash env sighash program.val)
        (fun r w' => ∀ complete, Q ⟨complete, true, [], witnessOf r sigdata.scriptWitness⟩ w') E w) :
    wp (produceWalletSignature env ops legacy creator program sigdata) Q E w := by
  rw [produceWalletSignature, produceSignature]
  cases hcomplete : sigdata.complete with
  | true => exact hkept (Or.inl hcomplete) _
  | false =>
    have hprogram : quantumProgramOf (witnessV1Script program) = some program := quantumProgramOf_eq program
    simp only [Bool.false_eq_true, if_false, hprogram, createQuantumSig, wp_bind]
    cases hhash : computeSchnorrSignatureHash creator with
    | none => exact hkept (Or.inr hhash) _
    | some sighash =>
      refine wp.imp (hsigned sighash hcomplete hhash) ?_
      intro r w' h
      exact h _

variable {mgr : QuantumSafeManager Key}

theorem QuantumSafeManager.Matched.message_of_valid (hlib : env.lib.VerifiesOwnMessage)
    (h : mgr.Matched env.lib) (hleft : mgr.LeafLeft env.lib) {message hash : Uint256} {o : SignOutcome}
    (hr : o.remainingRead = true) (ho : o.xmss = .succeeds) {sphincsSig : Bytes}
    (hvalid : DualSignatureValid env.lib.toOqsVerify (mgr.sign env.lib message .xmss o).1 sphincsSig
      mgr.getDualPublicKeyBundle hash) : hash = message := by
  obtain ⟨-, sk, xp, ss, sp, algo, seed, rfl, -⟩ := h
  obtain ⟨_, hm, hleft⟩ := hleft
  obtain rfl := Option.some.inj hm
  obtain ⟨s, hslt, hs, -, hsign⟩ := hleft.sign message
  obtain ⟨stored, -, hstored, hlt, -⟩ := hleft
  rw [sign_xmss_of_lt rfl hstored hlt message hr ho, hsign] at hvalid
  obtain ⟨-, -, -, hverify, -⟩ := hvalid
  have hbundle : getDualPublicKeyBundle (⟨some sk, some xp, some ss, some sp, algo⟩ : QuantumSafeManager Key) =
      xp.val ++ sp.val := rfl
  rw [hbundle, List.take_left' xp.property] at hverify
  exact hlib.stfl_message s.key s.index message hash xp hslt hverify

theorem QuantumSafeManager.Matched.not_valid_of_failed (hlib : env.lib.VerifiesOwnMessage)
    (h : mgr.Matched env.lib) {message hash : Uint256} {o o' : SignOutcome} (ho' : o'.sphincs = false)
    {xmssSig : Bytes} : ¬ DualSignatureValid env.lib.toOqsVerify xmssSig
      ((mgr.sign env.lib message .xmss o).2.1.sign env.lib message .sphincsPlus o').1
      mgr.getDualPublicKeyBundle hash := by
  intro hvalid
  obtain ⟨-, sk, xp, ss, sp, algo, seed, rfl, -⟩ := h
  have hss : (QuantumSafeManager.sign env.lib ⟨some sk, some xp, some ss, some sp, algo⟩ message .xmss
      o).2.1.sphincsPrivate = some ss := by
    simp only [QuantumSafeManager.sign]
    split <;> rfl
  rw [sign_sphincsPlus_fst env.lib hss, ho'] at hvalid
  obtain ⟨-, -, -, -, hverify⟩ := hvalid
  have hbundle : getDualPublicKeyBundle (⟨some sk, some xp, some ss, some sp, algo⟩ : QuantumSafeManager Key) =
      xp.val ++ sp.val := rfl
  rw [hbundle, List.drop_left' xp.property] at hverify
  exact absurd ((hlib.sig_zero hash.val sp).symm.trans hverify) Bool.false_ne_true

theorem verifies_iff {complete : Bool} {signature : QuantumSignature} {old : List Bytes}
    (hown : programFromManager env mgr = some program)
    (hbundle : signature.dualPubkeyBundle = mgr.getDualPublicKeyBundle) :
    Verifies env ops creator program ⟨complete, true, [], witnessOf (some signature) old⟩ ↔
      castToBool program.val = true ∧ ∃ hash, creator.checker.keyPathHash = some hash ∧
        DualSignatureValid env.lib.toOqsVerify signature.xmssSig signature.sphincsSig
          mgr.getDualPublicKeyBundle hash := by
  have hsha : env.hashes.sha256 mgr.getDualPublicKeyBundle = program := by
    obtain ⟨-, h⟩ := Option.ite_none_left_eq_some.mp hown
    exact Option.some.inj h
  rw [Verifies, verifyScript_spends_iff _ _ _ _ _ _ rfl rfl]
  constructor
  · rintro ⟨-, program', -, hspk, hbool, _, _, _, hwitness, -, hash, hhash, hvalid⟩
    obtain rfl : program.val = program' := (List.cons.inj (List.cons.inj hspk).2).2
    cases hwitness
    rw [hbundle] at hvalid
    exact ⟨hbool, hash, hhash, hvalid⟩
  · rintro ⟨hbool, hash, hhash, hvalid⟩
    refine ⟨rfl, program.val, program.property, rfl, hbool, _, _, _, rfl, ?_, hash, hhash, ?_⟩
    · rw [hbundle, hsha]
    · rw [hbundle]
      exact hvalid

variable {ref : QuantumKeyRef} {inMemory : Bool} {master : Uint256}
  (hkeys : AllKeys env master (QuantumSafeManager.Matched env.lib) w.keyState)

include hkeys in
theorem SigningWith.matched
    (h : SigningWith env w program.val program ref mgr inMemory) : mgr.Matched env.lib :=
  h.source.good (fun _ _ _ _ hder => (QuantumSafeManager.matched_of_derivedKey hder).1) hkeys

theorem SigningWith.signingKey_eq {outputProgram : Bytes}
    (h : SigningWith env w outputProgram program ref mgr inMemory) :
    signingKey env w ref program ⟨.succeeds, .succeeds⟩ = some mgr := by
  have hkey := h.key
  rw [signingKey] at hkey ⊢
  cases hmem : keyInMemory w ref program with
  | some mgr' =>
    rw [hmem] at hkey
    exact hkey
  | none =>
    rw [hmem, storedOrDerivedKey] at hkey
    rw [Option.none_or, storedOrDerivedKey]
    cases hread : ref.dbKeys.findSome? w.db.readQuantum with
    | some packed =>
      rw [hread] at hkey
      exact hkey
    | none =>
      rw [hread] at hkey
      obtain ⟨root, hroot, hder⟩ := Option.bind_eq_some_iff.mp hkey
      have hok := (Option.ite_none_right_eq_some.mp hder).1
      obtain ⟨hx, hs⟩ := (QuantumSafeManager.generate_fst _ _ _ _ _).mp hok
      have ho : (w.outcomes 0).keygen = ⟨.succeeds, .succeeds⟩ := by
        rw [← hx, ← hs]
      rw [ho] at hder
      simp [hroot, hder]

theorem not_usesLeaf_of_eq {t : World Key} (h : t.keyState = w.keyState) : ¬ UsesLeaf env w t := by
  rintro ⟨ref, program, hlt⟩
  rw [h] at hlt
  exact Nat.lt_irrefl _ hlt

include hkeys in
theorem failsClean_of_no_leaf
    (h : sigdata.complete = false → (computeSchnorrSignatureHash creator).isSome = true →
      ∀ {ref mgr inMemory}, SigningWith env w program.val program ref mgr inMemory →
      PendingPasses env w mgr → ¬ mgr.LeafLeft env.lib) :
    FailsClean env ops legacy creator program sigdata w := by
  refine wp_produceWalletSignature (fun _ _ => Or.inr (not_usesLeaf_of_eq rfl)) fun sighash hcomplete hhash => ?_
  refine wp_mono signQuantumTransactionSighash_ends ?_ fun _ _ _ => trivial
  rintro r t (⟨-, ht⟩ | ⟨program', ref, mgr, inMemory, hwith, hpass, hend⟩) complete
  · exact Or.inr (not_usesLeaf_of_eq ht)
  obtain rfl : program = program' := Option.some.inj ((witnessProgramOf_val program).symm.trans hwith.output)
  have hleft := h hcomplete (by rw [hhash]; rfl) hwith hpass
  right
  rintro ⟨ref', program', hlt⟩
  have hle := hend.leavesUsed_le hwith (hwith.matched hkeys) hleft ref' program'
  omega

include hkeys in
theorem failsClean_of_not_maySign
    (h : sigdata.complete = false → (computeSchnorrSignatureHash creator).isSome = true →
      ¬ MaySign env program w) : FailsClean env ops legacy creator program sigdata w := by
  refine failsClean_of_no_leaf hkeys fun hcomplete hhash ref mgr inMemory hwith hpass hleft => ?_
  refine h hcomplete hhash ⟨fun pending hpending => ?_, ref, mgr, hwith.found, hwith.signingKey_eq,
    hwith.own, hleft⟩
  obtain ⟨n, current, hcurrent, hlt⟩ := hpass pending hpending
  obtain ⟨sk, -, rfl⟩ := Option.map_eq_some_iff.mp hcurrent
  exact hlt.trans_le (sk.getIndex_le env.lib _)

include hkeys in
theorem SigningWith.readyToSign_iff (h : SigningWith env w program.val program ref mgr inMemory) :
    ReadyToSign env w program.val ↔ PendingBelow env w.db mgr ∧ mgr.LeafLeft env.lib := by
  constructor
  · rintro ⟨program', ref', houtput, hfound, mgr', hkey, -, hpending, hleft, -⟩
    obtain rfl := Option.some.inj (h.output.symm.trans houtput)
    obtain rfl := Option.some.inj (h.found.symm.trans hfound)
    obtain rfl := Option.some.inj (h.signingKey_eq.symm.trans hkey)
    exact ⟨hpending, hleft⟩
  · exact fun hrest => ⟨program, ref, h.output, h.found, mgr, h.signingKey_eq, h.own, hrest.1, hrest.2, hkeys.seals⟩

include hkeys in
theorem signQuantumTransactionSighash_signed (sighash : Uint256)
    (hread : ∀ n, (w.outcomes n).sign.remainingRead = true)
    (hxmss : ∀ n, (w.outcomes n).sign.xmss = .succeeds)
    (hleft : ∀ {ref mgr inMemory}, SigningWith env w program.val program ref mgr inMemory →
      mgr.LeafLeft env.lib) :
    wp (signQuantumTransactionSighash env sighash program.val)
      (fun r t => ∀ signature, r = some signature → UsesLeaf env w t ∧ ∃ mgr n n',
        mgr.Matched env.lib ∧ mgr.LeafLeft env.lib ∧ programFromManager env mgr = some program ∧
        signature = ⟨(mgr.sign env.lib sighash .xmss (w.outcomes n).sign).1,
          ((mgr.sign env.lib sighash .xmss (w.outcomes n).sign).2.1.sign env.lib sighash .sphincsPlus
            (w.outcomes n').sign).1, mgr.getDualPublicKeyBundle⟩)
      (fun _ _ => True) w := by
  refine wp_mono signQuantumTransactionSighash_ends ?_ fun _ _ _ => trivial
  rintro r t (⟨rfl, -⟩ | ⟨program', ref, mgr, inMemory, hwith, -, hend⟩) signature hr
  · cases hr
  obtain rfl : program = program' := Option.some.inj ((witnessProgramOf_val program).symm.trans hwith.output)
  subst hr
  have hmatched := hwith.matched hkeys
  refine ⟨⟨ref, program, hend.usesLeaf hwith hmatched (hleft hwith) hread hxmss⟩, mgr, ?_⟩
  generalize t.keyState = c at hend
  cases hend with
  | signed n n' packed _ _ => exact ⟨n, n', hmatched, hleft hwith, hwith.own, rfl⟩

include hkeys in
theorem failsClean_of_not_ready (hs : AllSucceed w.outcomes) (hready : ¬ ReadyToSign env w program.val) :
    FailsClean env ops legacy creator program sigdata w := by
  refine failsClean_of_no_leaf hkeys fun _ _ ref mgr inMemory hwith hpass hleft => ?_
  refine hready ((hwith.readyToSign_iff hkeys).mpr ⟨fun pending hpending => ?_, hleft⟩)
  obtain ⟨n, current, hcurrent, hlt⟩ := hpass pending hpending
  rw [(hs n).indexRead] at hcurrent
  exact ⟨current, hcurrent, hlt⟩

include hkeys in
/-- Where the calls succeed, a witness that does not verify costs a leaf exactly
when a key is ready and what it signs is not the hash that is verified. -/
theorem failsClean_iff_of_succeeds (hlib : env.lib.VerifiesOwnMessage) (hs : AllSucceed w.outcomes) :
    FailsClean env ops legacy creator program sigdata w ↔
      (sigdata.complete = false → ReadyToSign env w program.val → ∀ sighash,
        computeSchnorrSignatureHash creator = some sighash →
          creator.checker.keyPathHash = some sighash ∧ castToBool program.val = true) := by
  by_cases hready : ReadyToSign env w program.val
  swap
  · exact iff_of_true (failsClean_of_not_ready hkeys hs hready) fun _ h => absurd h hready
  have hread : ∀ n, (w.outcomes n).sign.remainingRead = true := fun n => by rw [(hs n).sign]
  have hxmss : ∀ n, (w.outcomes n).sign.xmss = .succeeds := fun n => by rw [(hs n).sign]
  have hsphincs : ∀ n, (w.outcomes n).sign.sphincs = true := fun n => by rw [(hs n).sign]
  have hsign : ∀ sighash, wp (signQuantumTransactionSighash env sighash program.val)
      (fun r t => ∃ signature, r = some signature ∧ UsesLeaf env w t ∧ ∀ complete,
        Verifies env ops creator program
            ⟨complete, true, [], witnessOf (some signature) sigdata.scriptWitness⟩ ↔
          creator.checker.keyPathHash = some sighash ∧ castToBool program.val = true)
      (fun _ _ => False) w := by
    intro sighash
    have hsucceeds : wp (signQuantumTransactionSighash env sighash program.val) _ _ w :=
      signQuantumTransactionSighash_succeeds hs.allProceed sighash program.val
    have hsigned := signQuantumTransactionSighash_signed hkeys sighash hread hxmss
      fun h => ((h.readyToSign_iff hkeys).mp hready).2
    refine wp_mono (wp_and hsucceeds hsigned) ?_ fun _ _ he => he.1
    rintro r t ⟨hr, hsigned⟩
    obtain ⟨signature, rfl⟩ := Option.isSome_iff_exists.mp (hr.mpr hready)
    obtain ⟨hused, mgr, n, n', hmatched, hleft, hown, rfl⟩ := hsigned signature rfl
    refine ⟨_, rfl, hused, fun complete => ?_⟩
    rw [verifies_iff hown rfl]
    constructor
    · rintro ⟨hbool, hash, hhash, hvalid⟩
      obtain rfl := hmatched.message_of_valid hlib hleft (hread n) (hxmss n) hvalid
      exact ⟨hhash, hbool⟩
    · rintro ⟨hhash, hbool⟩
      exact ⟨hbool, sighash, hhash,
        hmatched.dualSignatureValid hleft sighash (hread n) (hxmss n) (hsphincs n')⟩
  constructor
  · intro hclean hcomplete _ sighash hhash
    by_contra hother
    refine wp_false (wp_mono (wp_and hclean (wp_produceWalletSignature
      (Q := fun data t => ¬ (Verifies env ops creator program data ∨ ¬ UsesLeaf env w t))
      (E := fun _ _ => False) ?_ ?_)) (fun _ _ h => h.2 h.1) fun _ _ h => h.2)
    · rintro (h | h)
      · exact absurd (hcomplete.symm.trans h) Bool.false_ne_true
      · cases hhash.symm.trans h
    · intro sighash' _ hhash'
      obtain rfl := Option.some.inj (hhash.symm.trans hhash')
      refine wp.imp (hsign sighash) ?_
      rintro _ t ⟨signature, rfl, hused, hverifies⟩ complete
      rintro (h | h)
      · exact hother ((hverifies complete).mp h)
      · exact h hused
  · intro hcond
    refine wp_produceWalletSignature (fun _ _ => Or.inr (not_usesLeaf_of_eq rfl)) fun sighash hcomplete hhash => ?_
    refine wp_mono (hsign sighash) ?_ fun _ _ _ => trivial
    rintro _ t ⟨signature, rfl, -, hverifies⟩ complete
    exact Or.inl ((hverifies complete).mpr (hcond hcomplete hready sighash hhash))

/-- Only the SPHINCS+ half of a signature fails, and where a pending record is
there, the first reads of the leaf index. -/
def wastingOutcomes (pending : Bool) : Nat → Outcome := fun n =>
  { Outcome.good Uint256.zero with
    sign := ⟨true, .succeeds, false⟩
    indexRead := if pending && n < 2 then .remainingFails else .succeeds }

theorem wastingOutcomes_proceeds {pending : Bool} {n : Nat} (hn : pending = true → 2 ≤ n) :
    (wastingOutcomes pending n).Proceeds := by
  refine ⟨rfl, rfl, rfl, rfl, rfl, ?_⟩
  simp only [wastingOutcomes, Bool.and_eq_true, decide_eq_true_eq]
  rw [if_neg]
  rintro ⟨hpending, hlt⟩
  have := hn hpending
  omega

theorem recoverPendingXmssDb_wasting {k : Nat} (hk : k ≤ 1) (mgr : QuantumSafeManager Key) :
    wp (recoverPendingXmssDb env mgr)
      (fun ok w' => (ok = true ↔ ∀ pending, w.db.quantumPending = some pending →
          ∃ current, mgr.getXmssIndex env.lib .remainingFails = some current ∧ pending < current) ∧
        (ok = true → AllProceed w'.outcomes) ∧ w'.wallet = w.wallet) (fun _ _ => False)
      { w with outcomes := fun n => wastingOutcomes w.db.quantumPending.isSome (n + k) } := by
  rw [recoverPendingXmssDb, wp_bind, wp_get]
  cases hpending : w.db.quantumPending with
  | none => exact ⟨iff_of_true rfl (by simp), fun _ _ => wastingOutcomes_proceeds (by simp), rfl⟩
  | some pendingIndex =>
    have hread : (wastingOutcomes true (0 + k)).indexRead = .remainingFails := by
      simp only [wastingOutcomes, Bool.true_and, decide_eq_true_eq]
      rw [if_pos (by omega)]
    dsimp only [Option.isSome_some]
    rw [wp_bind, wp_nextOutcome]
    rw [hread]
    cases hindex : mgr.getXmssIndex env.lib .remainingFails with
    | none =>
      refine ⟨iff_of_false (by simp) fun h => ?_, by simp, rfl⟩
      obtain ⟨current, hcurrent, -⟩ := h pendingIndex rfl
      cases hcurrent
    | some current =>
      simp only [setXmssIndex, Bool.not_false, Bool.and_true, decide_eq_true_eq]
      refine wp_ite (fun hle => ?_) fun hlt => ?_
      · refine ⟨iff_of_false (by simp) fun h => ?_, by simp, rfl⟩
        obtain ⟨_, hcurrent, hlt⟩ := h pendingIndex rfl
        obtain rfl := Option.some.inj hcurrent
        omega
      · rw [wp_bind]
        refine wp_eraseQuantumPending rfl ⟨iff_of_true rfl ?_, fun _ _ => ?_, rfl⟩
        · intro _ hp
          obtain rfl := Option.some.inj hp
          exact ⟨current, rfl, Nat.lt_of_not_le hlt⟩
        · exact wastingOutcomes_proceeds fun _ => by omega

include hkeys in
/-- A signature whose SPHINCS+ half has failed is given out, and has cost a
leaf. -/
theorem not_failsClean_of_failed (hlib : env.lib.VerifiesOwnMessage)
    (hcomplete : sigdata.complete = false) {sighash : Uint256}
    (hhash : computeSchnorrSignatureHash creator = some sighash)
    (hfailed : ∀ n, (w.outcomes n).sign = ⟨true, .succeeds, false⟩)
    (hsign : wp (signQuantumTransactionSighash env sighash program.val) (fun r _ => r.isSome = true)
      (fun _ _ => False) w)
    (hleft : ∀ {ref mgr inMemory}, SigningWith env w program.val program ref mgr inMemory →
      mgr.LeafLeft env.lib) :
    ¬ FailsClean env ops legacy creator program sigdata w := by
  intro hclean
  have hsigned := signQuantumTransactionSighash_signed hkeys sighash (fun n => by rw [hfailed n])
    (fun n => by rw [hfailed n]) hleft
  refine wp_false (wp_mono (wp_and hclean (wp_produceWalletSignature
    (Q := fun data t => ¬ (Verifies env ops creator program data ∨ ¬ UsesLeaf env w t))
    (E := fun _ _ => False) ?_ ?_)) (fun _ _ h => h.2 h.1) fun _ _ h => h.2)
  · rintro (h | h)
    · exact absurd (hcomplete.symm.trans h) Bool.false_ne_true
    · cases hhash.symm.trans h
  · intro sighash' _ hhash'
    obtain rfl := Option.some.inj (hhash.symm.trans hhash')
    refine wp_mono (wp_and hsign hsigned) ?_ fun _ _ he => he.1
    rintro r t ⟨hr, hsigned⟩ complete
    obtain ⟨signature, rfl⟩ := Option.isSome_iff_exists.mp hr
    obtain ⟨hused, mgr, n, n', hmatched, -, hown, rfl⟩ := hsigned signature rfl
    rintro (h | h)
    · obtain ⟨-, hash, -, hvalid⟩ := (verifies_iff hown rfl).mp h
      exact hmatched.not_valid_of_failed hlib (by rw [hfailed n']) hvalid
    · exact h hused

include hkeys in
theorem not_failsClean_of_maySign (hlib : env.lib.VerifiesOwnMessage) (hcomplete : sigdata.complete = false)
    (hhash : (computeSchnorrSignatureHash creator).isSome = true) (hmay : MaySign env program w) :
    ∃ outcomes, ¬ FailsClean env ops legacy creator program sigdata { w with outcomes := outcomes } := by
  obtain ⟨hpending, ref, mgr, hfound, hkey, hown, hleft⟩ := hmay
  obtain ⟨sighash, hhash⟩ := Option.isSome_iff_exists.mp hhash
  have hpass : ∀ pending, w.db.quantumPending = some pending →
      ∃ current, mgr.getXmssIndex env.lib .remainingFails = some current ∧ pending < current := by
    intro pending hp
    obtain ⟨sk, hsk, stored, -, hstored, -⟩ := hleft
    refine ⟨xmssLeaves, ?_, hpending pending hp⟩
    simp [QuantumSafeManager.getXmssIndex, hsk, XmssPrivateKey.getIndex, hstored]
  refine ⟨wastingOutcomes w.db.quantumPending.isSome, ?_⟩
  refine not_failsClean_of_failed hkeys hlib hcomplete hhash (fun _ => rfl) ?_ ?_
  · refine wp_mono (signQuantumTransactionSighash_of_recover _
      (w := { w with outcomes := wastingOutcomes w.db.quantumPending.isSome }) rfl
      (fun k hk mgr => recoverPendingXmssDb_wasting hk mgr) sighash program.val) ?_ fun _ _ he => he
    exact fun r _ hr => hr.mpr ⟨program, ref, mgr, witnessProgramOf_val program, hfound, hkey, hown, hpass,
      hleft, hkeys.seals⟩
  · intro ref' mgr' inMemory hwith
    obtain rfl := Option.some.inj (hfound.symm.trans hwith.found)
    obtain rfl := Option.some.inj (hkey.symm.trans hwith.signingKey_eq)
    exact hleft

/-- In every wallet that a run reaches under one master key, for every
transaction, input, spent outputs and hash type. Where every call succeeds, a witness that does not verify
costs a leaf exactly when a key is ready and the hash type does not give the hash
that is verified. Where calls may fail, only a wallet without a key to sign with
never wastes a leaf. -/
theorem produceWalletSignature_failsClean_iff (hlib : env.lib.VerifiesOwnMessage) (ops : LegacyOps)
    (legacy : LegacySigning env.hashes) (creator : MutableTransactionSignatureCreator env.hashes)
    (program : Uint256) (sigdata : SignatureData) (keypoolSize : Nat) (outcomes : Nat → Outcome)
    (es : List WalletEvent) (hone : OneMasterKey env (World.new Key keypoolSize outcomes) master es) :
    let w := walletRun env (World.new Key keypoolSize outcomes) es
    ((∀ outcomes', AllSucceed outcomes' →
        FailsClean env ops legacy creator program sigdata { w with outcomes := outcomes' }) ↔
      (sigdata.complete = false → ReadyToSign env w program.val → ∀ sighash,
        computeSchnorrSignatureHash creator = some sighash →
          creator.checker.keyPathHash = some sighash ∧ castToBool program.val = true)) ∧
    ((∀ outcomes', FailsClean env ops legacy creator program sigdata { w with outcomes := outcomes' }) ↔
      (sigdata.complete = false → (computeSchnorrSignatureHash creator).isSome = true →
        ¬ MaySign env program w)) := by
  intro w
  obtain ⟨master', hkeys⟩ := walletRun_matched hone
  constructor
  · have hiff : ∀ outcomes', AllSucceed outcomes' →
        (FailsClean env ops legacy creator program sigdata { w with outcomes := outcomes' } ↔ _) :=
      fun outcomes' hs => failsClean_iff_of_succeeds hkeys hlib hs
    exact ⟨fun h => (hiff sampleSucceeds allSucceed_sample).mp (h _ allSucceed_sample),
      fun h outcomes' hs => (hiff outcomes' hs).mpr h⟩
  · constructor
    · intro hclean hcomplete hhash hmay
      obtain ⟨outcomes', hnot⟩ := not_failsClean_of_maySign hkeys hlib hcomplete hhash hmay
      exact hnot (hclean outcomes')
    · exact fun h outcomes' => failsClean_of_not_maySign hkeys h
end

theorem messageSignature_length (k : UInt8) (msg : Bytes) :
    (1 :: k :: ((msg ++ List.replicate 32 0).take 32 ++ List.replicate 2466 0)).length =
      xmssSignatureSize := by
  rw [List.length_cons, List.length_cons, List.length_append, List.length_take, List.length_append,
    List.length_replicate, List.length_replicate, xmssSignatureSize]
  omega

def messageLiboqs : Liboqs UInt8 where
  __ := sampleLiboqs
  stflVerify msg sig pk :=
    decide (sig.take 34 = 1 :: pk.headD 0 :: (msg ++ List.replicate 32 0).take 32)
  stflSign k _ msg := ⟨1 :: k :: ((msg ++ List.replicate 32 0).take 32 ++ List.replicate 2466 0),
    messageSignature_length k msg⟩
  stflVerify_sign k _ msg _ := by
    have hlen : ((msg ++ List.replicate 32 (0 : UInt8)).take 32).length = 32 := by simp
    refine decide_eq_true ?_
    change 1 :: k :: (_ ++ _ : Bytes).take 32 = _
    rw [List.take_left' hlen]
    rfl

theorem messageLiboqs_verifiesOwnMessage : messageLiboqs.VerifiesOwnMessage where
  stfl_message k i msg msg' pk _ h := by
    have hlen : ((msg.val ++ List.replicate 32 (0 : UInt8)).take 32).length = 32 := by simp
    have heq := of_decide_eq_true h
    change 1 :: k :: (_ ++ _ : Bytes).take 32 = _ at heq
    rw [List.take_left' hlen, List.take_left' msg.property, List.take_left' msg'.property] at heq
    exact Subtype.ext (List.cons.inj (List.cons.inj heq).2).2.symm
  sig_zero msg pk := by
    change decide (zeroSphincsSignature.val.take 1 = [1]) = false
    refine decide_eq_false fun h => ?_
    have hhead : some (0 : UInt8) = some 1 := congrArg List.head? h
    exact absurd hhead (by decide)

def messageWalletEnv : WalletEnv UInt8 := { sampleWalletEnv with lib := messageLiboqs }

def sampleUnsigned : CTransaction := ⟨2, [⟨⟨Uint256.zero, 0⟩, [], 0xffffffff, []⟩], [], 0⟩

def sampleCreator (nHashType : Int) : MutableTransactionSignatureCreator messageWalletEnv.hashes where
  checker :=
    { txTo := sampleUnsigned
      nIn := 0
      amount := 1
      txdata := PrecomputedTransactionData.init messageWalletEnv.hashes sampleUnsigned
        [⟨1, witnessV1Script sampleProgram⟩] true
      mdb := .fail
      nIn_lt := by decide
      txdata_init := fun _ hd => ⟨_, true, hd⟩ }
  nHashType := nHashType
  mdb_eq := rfl

def sampleLegacySigning (h : Hashes) : LegacySigning h := ⟨fun _ => none, fun _ _ data _ => data⟩

def sampleUnsignedData : SignatureData := ⟨false, false, [], []⟩

theorem sampleAddress_oneMasterKey : OneMasterKey messageWalletEnv (World.new UInt8 2 sampleSucceeds)
    Uint256.zero sampleAddressEvents :=
  oneMasterKey_of_keyless (by simp [sampleAddressEvents, WalletOp.passphrase, WalletOp.draws])

theorem produceWalletSignature_failsClean_sample :
    let w := walletRun messageWalletEnv (World.new UInt8 2 sampleSucceeds) sampleAddressEvents
    ∀ outcomes, AllSucceed outcomes →
      FailsClean messageWalletEnv sampleLegacyOps (sampleLegacySigning _) (sampleCreator 0) sampleProgram
        sampleUnsignedData { w with outcomes := outcomes } := by
  have hiff := produceWalletSignature_failsClean_iff messageLiboqs_verifiesOwnMessage sampleLegacyOps
    (sampleLegacySigning _) (sampleCreator 0) sampleProgram sampleUnsignedData 2 sampleSucceeds
    sampleAddressEvents sampleAddress_oneMasterKey
  have hdefault : computeSchnorrSignatureHash (sampleCreator 0) = (sampleCreator 0).checker.keyPathHash := by
    decide +kernel
  have hbool : castToBool sampleProgram.val = true := by decide
  generalize walletRun messageWalletEnv (World.new UInt8 2 sampleSucceeds) sampleAddressEvents = w at *
  refine hiff.1.mpr fun _ _ sighash hhash => ⟨?_, hbool⟩
  rw [← hdefault]
  exact hhash

theorem sampleAddress_signs :
    Signs messageWalletEnv (walletRun messageWalletEnv (World.new UInt8 2 sampleSucceeds)
      sampleAddressEvents) Uint256.zero sampleProgram.val sampleSucceeds := by
  rw [signs_iff_isSome]
  decide +kernel

theorem sampleCreator_all_differs : (computeSchnorrSignatureHash (sampleCreator 1)).isSome = true ∧
      computeSchnorrSignatureHash (sampleCreator 1) ≠ (sampleCreator 1).checker.keyPathHash := by
  decide +kernel

theorem sampleAddress_no_pending :
    (walletRun messageWalletEnv (World.new UInt8 2 sampleSucceeds) sampleAddressEvents).db.quantumPending =
      none := by
  decide +kernel

/-- The hash type ALL wastes a leaf where every call succeeds, and so does a call
that fails where the hash type is the default one. -/
theorem produceWalletSignature_wastes_leaf :
    let w := walletRun messageWalletEnv (World.new UInt8 2 sampleSucceeds) sampleAddressEvents
    ¬ FailsClean messageWalletEnv sampleLegacyOps (sampleLegacySigning _) (sampleCreator 1) sampleProgram
        sampleUnsignedData { w with outcomes := sampleSucceeds } ∧
      ∃ outcomes, ¬ FailsClean messageWalletEnv sampleLegacyOps (sampleLegacySigning _) (sampleCreator 0)
        sampleProgram sampleUnsignedData { w with outcomes := outcomes } := by
  obtain ⟨master, hkeys⟩ := walletRun_matched sampleAddress_oneMasterKey
  have hready := (signs_iff allSucceed_sample Uint256.zero sampleProgram.val).mp sampleAddress_signs
  have hpending := sampleAddress_no_pending
  obtain ⟨hsome, hdiffers⟩ := sampleCreator_all_differs
  have hdefault : (computeSchnorrSignatureHash (sampleCreator 0)).isSome = true := by decide +kernel
  generalize walletRun messageWalletEnv (World.new UInt8 2 sampleSucceeds) sampleAddressEvents = w at *
  constructor
  · intro hclean
    obtain ⟨sighash, hhash⟩ := Option.isSome_iff_exists.mp hsome
    have hkeys' : AllKeys messageWalletEnv master (QuantumSafeManager.Matched messageWalletEnv.lib)
        (World.keyState { w with outcomes := sampleSucceeds }) := hkeys
    have hsame := (failsClean_iff_of_succeeds hkeys' messageLiboqs_verifiesOwnMessage
      allSucceed_sample).mp hclean rfl hready sighash hhash
    exact hdiffers (hhash.trans hsame.1.symm)
  · refine not_failsClean_of_maySign hkeys messageLiboqs_verifiesOwnMessage rfl hdefault ?_
    obtain ⟨program, ref, hprogram, hfound, mgr, hkey, hown, -, hleft, -⟩ := hready
    obtain rfl := Option.some.inj ((witnessProgramOf_val sampleProgram).symm.trans hprogram)
    refine ⟨fun pending h => ?_, ref, mgr, hfound, hkey, hown, hleft⟩
    cases hpending.symm.trans h

end Byze
