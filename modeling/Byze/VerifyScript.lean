import Byze.QuantumVerify

/-! `VerifyScript` accepts the quantum spend of a version 1 witness program
and nothing else. -/

namespace Byze

section
variable (h : Hashes) (keys : PubKeyOps) (flags : ScriptVerifyFlags) (checker : SignatureChecker)

def verifyWitnessProgram (witness : List Bytes) (witversion : Nat) (program : Bytes)
    (isP2sh : Bool) (serror : ScriptError) : Eval Unit :=
  if witversion = 0 then scriptFail .witnessProgramWrongLength
  else if witversion = 1 ∧ program.length = 32 ∧ isP2sh = false then
    match witness with
    | [xmssSig, sphincsSig, dualPubkey] => do
      let execdata := { ScriptExecutionData.empty with annexPresent := false, annexInit := true }
      if (h.sha256 dualPubkey).val ≠ program then scriptFail .witnessProgramMismatch
      let _ ← checker.checkQuantumDualSignature xmssSig sphincsSig dualPubkey .taproot execdata serror
      pure ()
    | _ => scriptFail .witnessProgramMismatch
  else if isP2sh = false ∧ isPayToAnchor witversion program then pure ()
  else if flags .discourageUpgradableWitnessProgram then
    scriptFail .discourageUpgradableWitnessProgram
  else pure ()

def baseEnv : EvalEnv := ⟨h, keys, flags, checker, .base⟩

def evalBase (stack : Stack) (script : CScript) : Eval Stack := do
  let (stack, _) ← evalScript (baseEnv h keys flags checker) stack script ScriptExecutionData.empty
  pure stack

def requireTrue (stack : Stack) : Eval Unit :=
  match stack with
  | [] => scriptFail .evalFalse
  | top :: _ => if castToBool top then pure () else scriptFail .evalFalse

def resizeOne (stack : Stack) : Stack := [stack.getLastD []]

def verifyP2SH (scriptSig : CScript) (witness : List Bytes) (stackCopy : Stack) : Eval (Stack × Bool) :=
  if ¬ isPushOnly scriptSig then scriptFail .sigPushOnly
  else
    match stackCopy with
    | [] => throw .abort
    | pubKey2 :: stack => do
      let stack ← evalBase h keys flags checker stack pubKey2
      requireTrue stack
      match isWitnessProgram pubKey2 with
      | some (witnessversion, witnessprogram) =>
        if flags .witness then
          if scriptSig ≠ pushData pubKey2 then scriptFail .witnessMalleatedP2SH
          verifyWitnessProgram h flags checker witness witnessversion witnessprogram true .ok
          pure (resizeOne stack, true)
        else pure (stack, false)
      | none => pure (stack, false)

/-- The stack after the bare witness program, and whether there was one. -/
def verifyBareWitness (scriptSig scriptPubKey : CScript) (witness : List Bytes) (stack : Stack) :
    Eval (Stack × Bool) :=
  match isWitnessProgram scriptPubKey with
  | some (witnessversion, witnessprogram) =>
    if flags .witness then do
      if ¬ scriptSig.isEmpty then scriptFail .witnessMalleated
      verifyWitnessProgram h flags checker witness witnessversion witnessprogram false .ok
      pure (resizeOne stack, true)
    else pure (stack, false)
  | none => pure (stack, false)

def isQuantumOutput (scriptPubKey : CScript) : Bool :=
  match isWitnessProgram scriptPubKey with
  | some (witnessversion, witnessprogram) => witnessversion = 1 ∧ witnessprogram.length = 32
  | none => false

theorem isQuantumOutput_iff (spk : CScript) :
    isQuantumOutput spk = true ↔ ∃ program, program.length = 32 ∧ spk = op1 :: 0x20 :: program := by
  constructor
  · intro hq
    match spk with
    | [] => simp [isQuantumOutput, isWitnessProgram] at hq
    | [_] => simp [isQuantumOutput, isWitnessProgram] at hq
    | version :: size :: program =>
      by_cases hlen : (version :: size :: program).length < 4 ∨ (version :: size :: program).length > 42
      · simp only [isQuantumOutput, isWitnessProgram, if_pos hlen, Bool.false_eq_true] at hq
      by_cases hv : version ≠ op0 ∧ (version < op1 ∨ version > op16)
      · simp only [isQuantumOutput, isWitnessProgram, if_neg hlen, if_pos hv, Bool.false_eq_true] at hq
      by_cases hs : size.toNat + 2 = (version :: size :: program).length
      · simp only [isQuantumOutput, isWitnessProgram, if_neg hlen, if_neg hv, if_pos hs,
          decide_eq_true_eq] at hq
        obtain ⟨hone, hp⟩ := hq
        have hsize : size = 0x20 := by
          apply UInt8.toNat_inj.mp
          simp only [List.length_cons] at hs
          simp
          omega
        exact ⟨program, hp, by rw [decodeOpN_eq_one hone, hsize]⟩
      · simp only [isQuantumOutput, isWitnessProgram, if_neg hlen, if_neg hv, if_neg hs,
          Bool.false_eq_true] at hq
  · rintro ⟨program, hp, rfl⟩
    simp [isQuantumOutput, isWitnessProgram, hp, decodeOpN, op1, op0, op16]

def verifyScript (scriptSig scriptPubKey : CScript) (witness : Option (List Bytes)) : Eval Unit := do
  let witness := witness.getD []
  if flags .sigPushOnly ∧ ¬ isPushOnly scriptSig then scriptFail .sigPushOnly
  if ¬ isQuantumOutput scriptPubKey ∨ scriptSig.length ≠ 0 then scriptFail .witnessProgramMismatch
  let stackCopy ← evalBase h keys flags checker [] scriptSig
  let stack ← evalBase h keys flags checker stackCopy scriptPubKey
  requireTrue stack
  let (stack, hadWitness) ← verifyBareWitness h flags checker scriptSig scriptPubKey witness stack
  let (stack, hadWitness) ←
    if flags .p2sh ∧ isPayToScriptHash scriptPubKey then do
      let (stack, had) ← verifyP2SH h keys flags checker scriptSig witness stackCopy
      pure (stack, hadWitness || had)
    else pure (stack, hadWitness)
  if flags .cleanStack then
    if ¬ (flags .p2sh ∧ flags .witness) then throw .abort
    if stack.length ≠ 1 then scriptFail .cleanStack
  if flags .witness then
    if ¬ flags .p2sh then throw .abort
    if ¬ hadWitness ∧ ¬ witness.isEmpty then scriptFail .witnessUnexpected
  pure ()

theorem evalBase_nil (stack : Stack) : evalBase h keys flags checker stack [] = .ok stack := by
  simp [evalBase, evalScript, evalLoop_nil, baseEnv, ConditionStack.new, ConditionStack.empty]

theorem evalBase_quantumOutput {program : Bytes} (hp : program.length = 32) :
    evalBase h keys flags checker [] (op1 :: 0x20 :: program) = .ok [program, [1]] := by
  have hlen : ¬ (op1 :: 0x20 :: program : CScript).length > maxScriptSize := by
    simp [hp, maxScriptSize]
  simp only [evalBase, evalScript, hlen]
  rw [evalLoop_quantumOutput hp rfl (by simp [maxOpsPerScript]) (by simp [maxStackSize])]
  rfl

theorem verifyScript_quantumOutput {program : Bytes} (hp : program.length = 32)
    (hp2sh : flags .p2sh = true) (hwit : flags .witness = true) (witness : Option (List Bytes)) :
    verifyScript h keys flags checker [] (op1 :: 0x20 :: program) witness =
      if castToBool program then
        verifyWitnessProgram h flags checker (witness.getD []) 1 program false .ok
      else scriptFail .evalFalse := by
  have hq := (isQuantumOutput_iff _).mpr ⟨program, hp, rfl⟩
  have hprog : isWitnessProgram (op1 :: 0x20 :: program) = some (1, program) := by
    simp [isWitnessProgram, hp, decodeOpN, op1, op0, op16]
  have hnot : isPayToScriptHash (op1 :: 0x20 :: program) = false := by
    simp [isPayToScriptHash, hp]
  have hpush : isPushOnly [] = true := by
    rw [isPushOnly]
    rfl
  have heval := evalBase_quantumOutput h keys flags checker hp
  cases hb : castToBool program with
  | false => simp [verifyScript, hpush, hq, evalBase_nil, heval, requireTrue, hb, scriptFail]
  | true =>
    cases hv : verifyWitnessProgram h flags checker (witness.getD []) 1 program false .ok with
    | error e =>
      simp [verifyScript, hpush, hq, evalBase_nil, heval, requireTrue, hb, verifyBareWitness, hprog, hwit, hv]
    | ok u =>
      simp [verifyScript, hpush, hq, evalBase_nil, heval, requireTrue, hb, verifyBareWitness, hprog,
        hwit, hp2sh, hnot, hv, resizeOne]

theorem verifyScript_other {scriptSig scriptPubKey : CScript} (witness : Option (List Bytes))
    (hg : ¬ (isQuantumOutput scriptPubKey = true ∧ scriptSig = [])) :
    verifyScript h keys flags checker scriptSig scriptPubKey witness ≠ .ok () := by
  have hgate : ¬ isQuantumOutput scriptPubKey = true ∨ scriptSig.length ≠ 0 := by
    by_cases hq : isQuantumOutput scriptPubKey = true
    · exact Or.inr (fun hl => hg ⟨hq, List.length_eq_zero_iff.mp hl⟩)
    · exact Or.inl hq
  by_cases hs : flags .sigPushOnly = true ∧ ¬ isPushOnly scriptSig = true
  · simp only [verifyScript, if_pos hs]
    simp [scriptFail]
  · simp only [verifyScript, if_neg hs, if_pos hgate]
    simp [scriptFail]
end

theorem verifyWitnessProgram_ok_iff {h : Hashes} (flags : ScriptVerifyFlags) (oqs : OqsVerify)
    (ops : LegacyOps) (ctx : TxContext h) (witness : List Bytes) {program : Bytes}
    (hp : program.length = 32) (serror : ScriptError) :
    verifyWitnessProgram h flags (transactionSignatureChecker oqs ops ctx) witness 1 program false
        serror = .ok () ↔
      ∃ xmssSig sphincsSig bundle, witness = [xmssSig, sphincsSig, bundle] ∧ (h.sha256 bundle).val = program ∧
        ∃ hash, ctx.keyPathHash = some hash ∧
          DualSignatureValid oqs xmssSig sphincsSig bundle hash := by
  match witness with
  | [] => simp [verifyWitnessProgram, hp, scriptFail]
  | [_] => simp [verifyWitnessProgram, hp, scriptFail]
  | [_, _] => simp [verifyWitnessProgram, hp, scriptFail]
  | _ :: _ :: _ :: _ :: _ => simp [verifyWitnessProgram, hp, scriptFail]
  | [xmssSig, sphincsSig, bundle] =>
    by_cases hh : (h.sha256 bundle).val = program
    · let execdata := { ScriptExecutionData.empty with annexPresent := false, annexInit := true }
      have hc := checkQuantumDualSignature_ok_iff oqs ctx xmssSig sphincsSig bundle serror
        (show execdata.annexInit = true from rfl) rfl
      have heq : verifyWitnessProgram h flags (transactionSignatureChecker oqs ops ctx)
          [xmssSig, sphincsSig, bundle] 1 program false serror =
          (checkQuantumDualSignature oqs ctx xmssSig sphincsSig bundle .taproot execdata serror >>=
            fun _ => .ok ()) := by
        simp [verifyWitnessProgram, hp, hh, transactionSignatureChecker, execdata]
      rw [heq, ExceptEq.bind_eq_ok_iff]
      simp only [and_true, hc]
      constructor
      · exact fun hv => ⟨xmssSig, sphincsSig, bundle, rfl, hh, hv⟩
      · rintro ⟨x, s, b, hw, -, hv⟩
        obtain ⟨rfl, rfl, rfl⟩ := hw
        exact hv
    · simp [verifyWitnessProgram, hp, hh, scriptFail]

theorem verifyScript_spends_iff {h : Hashes} {flags : ScriptVerifyFlags} (oqs : OqsVerify)
    (ops : LegacyOps) (ctx : TxContext h) (scriptSig scriptPubKey : CScript)
    (witness : Option (List Bytes)) (hp2sh : flags .p2sh = true) (hwit : flags .witness = true) :
    verifyScript h ops.toPubKeyOps flags (transactionSignatureChecker oqs ops ctx) scriptSig
        scriptPubKey witness = .ok () ↔
      scriptSig = [] ∧ ∃ program, program.length = 32 ∧ scriptPubKey = op1 :: 0x20 :: program ∧
        castToBool program = true ∧ ∃ xmssSig sphincsSig bundle,
          witness = some [xmssSig, sphincsSig, bundle] ∧ (h.sha256 bundle).val = program ∧
          ∃ hash, ctx.keyPathHash = some hash ∧
            DualSignatureValid oqs xmssSig sphincsSig bundle hash := by
  by_cases hg : isQuantumOutput scriptPubKey = true ∧ scriptSig = []
  · obtain ⟨hq, rfl⟩ := hg
    obtain ⟨program, hp, rfl⟩ := (isQuantumOutput_iff _).mp hq
    have hw := verifyWitnessProgram_ok_iff flags oqs ops ctx (witness.getD []) hp .ok
    rw [verifyScript_quantumOutput _ _ _ _ hp hp2sh hwit]
    constructor
    · intro hv
      cases hb : castToBool program with
      | false => simp [hb, scriptFail] at hv
      | true =>
        rw [hb, if_pos rfl, hw] at hv
        obtain ⟨x, s, b, hwitness, hsig⟩ := hv
        refine ⟨rfl, program, hp, rfl, hb, x, s, b, ?_, hsig⟩
        cases witness with
        | none => simp at hwitness
        | some w => exact congrArg some hwitness
    · rintro ⟨-, program', -, heq, hb, x, s, b, rfl, hsig⟩
      simp only [List.cons.injEq, true_and] at heq
      subst heq
      rw [hb, if_pos rfl, hw]
      exact ⟨x, s, b, rfl, hsig⟩
  · constructor
    · exact fun hv => False.elim (verifyScript_other _ _ _ _ witness hg hv)
    · rintro ⟨rfl, program, hp, rfl, -⟩
      exact False.elim (hg ⟨(isQuantumOutput_iff _).mpr ⟨program, hp, rfl⟩, rfl⟩)

/-- `VerifyScript` succeeds exactly on an empty script signature, a version 1
program of 32 bytes that reads as true, and a witness of two signatures and a
key bundle that hashes to the program and verifies both signatures, where the
data of the transaction has been prepared for taproot. -/
theorem verifyScript_ok_iff {h : Hashes} {flags : ScriptVerifyFlags} (oqs : OqsVerify)
    (ops : LegacyOps) (ctx : TxContext h) (scriptSig scriptPubKey : CScript)
    (witness : Option (List Bytes)) (hp2sh : flags .p2sh = true) (hwit : flags .witness = true) :
    verifyScript h ops.toPubKeyOps flags (transactionSignatureChecker oqs ops ctx) scriptSig
        scriptPubKey witness = .ok () ↔
      scriptSig = [] ∧ ∃ program, program.length = 32 ∧ scriptPubKey = op1 :: 0x20 :: program ∧
        castToBool program = true ∧ ∃ xmssSig sphincsSig bundle,
          witness = some [xmssSig, sphincsSig, bundle] ∧ (h.sha256 bundle).val = program ∧
          ∃ spent, ctx.ReadyFor spent ∧ DualSignatureValid oqs xmssSig sphincsSig bundle
            (bip341KeyPathHash h ctx.txTo spent ctx.nIn) := by
  rw [verifyScript_spends_iff oqs ops ctx scriptSig scriptPubKey witness hp2sh hwit]
  simp only [TxContext.keyPathHash_eq_some_iff, ← and_assoc]
  grind

def sampleHashes : Hashes :=
  ⟨fun _ => Uint256.fill 1, fun _ => [], fun _ => []⟩

def sampleVerify : OqsVerify := ⟨fun _ _ _ => true, fun _ _ _ => true⟩

def sampleLegacyOps : LegacyOps :=
  { checkLowS := fun _ => false
    pubkeyIsValid := fun _ => false
    verifyECDSA := fun _ _ _ => false
    verifySchnorr := fun _ _ _ => false
    signatureHash := fun _ _ _ _ _ _ => Uint256.zero }

def sampleSpend (scriptWitness : List Bytes) : CTransaction :=
  ⟨2, [⟨⟨Uint256.zero, 0⟩, [], 0xffffffff, scriptWitness⟩], [], 0⟩

def sampleSpent : CTxOut := ⟨1, op1 :: 0x20 :: List.replicate 32 1⟩

def sampleContext (scriptWitness : List Bytes) : TxContext sampleHashes :=
  { txTo := sampleSpend scriptWitness
    nIn := 0
    amount := 1
    txdata := PrecomputedTransactionData.init sampleHashes (sampleSpend scriptWitness) [sampleSpent] false
    mdb := .fail
    nIn_lt := by simp [sampleSpend]
    txdata_init := fun _ hd => ⟨[sampleSpent], false, hd⟩ }

def sampleWitness : List Bytes := [List.replicate 2500 0, List.replicate 7856 0, List.replicate 100 0]

theorem sampleWitness_valid (hash : Uint256) : DualSignatureValid sampleVerify (List.replicate 2500 0)
    (List.replicate 7856 0) (List.replicate 100 0) hash :=
  ⟨List.length_replicate, List.length_replicate, List.length_replicate, rfl, rfl⟩

theorem verifyScript_ok_sample : verifyScript sampleHashes sampleLegacyOps.toPubKeyOps (fun _ => true)
      (transactionSignatureChecker sampleVerify sampleLegacyOps (sampleContext sampleWitness)) []
      sampleSpent.scriptPubKey (some sampleWitness) = .ok () := by
  apply (verifyScript_ok_iff sampleVerify sampleLegacyOps (sampleContext sampleWitness) _ _ _ rfl rfl).mpr
  refine ⟨rfl, List.replicate 32 1, List.length_replicate, rfl, by decide, _, _, _, rfl, rfl, [sampleSpent], ?_⟩
  exact ⟨⟨_, rfl, rfl, rfl⟩, sampleWitness_valid _⟩

/-- The spent output is known, but the input of the transaction has no witness yet,
so the data is not prepared and a valid witness is refused. -/
theorem verifyScript_unprepared : ((sampleContext []).txdata.map (·.spentOutputs) = some [sampleSpent] ∧
      DualSignatureValid sampleVerify (List.replicate 2500 0) (List.replicate 7856 0) (List.replicate 100 0)
        (bip341KeyPathHash sampleHashes (sampleSpend []) [sampleSpent] 0)) ∧
    verifyScript sampleHashes sampleLegacyOps.toPubKeyOps (fun _ => true)
      (transactionSignatureChecker sampleVerify sampleLegacyOps (sampleContext [])) []
      sampleSpent.scriptPubKey (some sampleWitness) ≠ .ok () := by
  exact ⟨⟨rfl, sampleWitness_valid _⟩, by decide +kernel⟩

end Byze
