import Byze.Sighash

/-! The script interpreter: one instruction at a time on a stack of byte
strings, for every opcode and signature version. The head of a list is the
top of the stack. -/

namespace Byze
open CScriptNum

abbrev Stack := List Bytes

abbrev Eval := Except Stop

/-- The virtual methods of `BaseSignatureChecker`. A check that can set the
error code is given the code that stands before it. -/
structure SignatureChecker where
  checkECDSASignature : Bytes → Bytes → CScript → SigVersion → Eval Bool
  checkSchnorrSignature :
    Bytes → Bytes → SigVersion → ScriptExecutionData → ScriptError → Eval ScriptExecutionData
  checkQuantumDualSignature :
    Bytes → Bytes → Bytes → SigVersion → ScriptExecutionData → ScriptError → Eval ScriptExecutionData
  checkLockTime : Int → Bool
  checkSequence : Int → Bool

structure PubKeyOps where
  checkLowS : Bytes → Bool

def scriptFail {α : Type} (e : ScriptError) : Eval α := .error (.fail e)

def maxScriptElementSize : Nat := 520
def maxOpsPerScript : Nat := 201
def maxPubkeysPerMultisig : Int := 20
def maxScriptSize : Nat := 10000
def maxStackSize : Nat := 1000
def validationWeightPerSigopPassed : Int := 50

section

def isCompressedOrUncompressedPubKey (vchPubKey : Bytes) : Bool :=
  if vchPubKey.length < 33 then false
  else
    match vchPubKey.head? with
    | none => false
    | some b =>
      if b = 0x04 then vchPubKey.length = 65
      else if b = 0x02 ∨ b = 0x03 then vchPubKey.length = 33
      else false

def isCompressedPubKey (vchPubKey : Bytes) : Bool :=
  vchPubKey.length = 33 ∧ (vchPubKey.head? = some 0x02 ∨ vchPubKey.head? = some 0x03)

def isValidSignatureEncoding (sig : Bytes) : Bool :=
  let at_ (i : Nat) : Nat := (sig.getD i 0).toNat
  let lenR := at_ 3
  let lenS := at_ (5 + lenR)
  if sig.length < 9 then false
  else if sig.length > 73 then false
  else if at_ 0 ≠ 0x30 then false
  else if at_ 1 ≠ sig.length - 3 then false
  else if 5 + lenR ≥ sig.length then false
  else if lenR + lenS + 7 ≠ sig.length then false
  else if at_ 2 ≠ 0x02 then false
  else if lenR = 0 then false
  else if at_ 4 ≥ 0x80 then false
  else if lenR > 1 ∧ at_ 4 = 0 ∧ at_ 5 < 0x80 then false
  else if at_ (lenR + 4) ≠ 0x02 then false
  else if lenS = 0 then false
  else if at_ (lenR + 6) ≥ 0x80 then false
  else if lenS > 1 ∧ at_ (lenR + 6) = 0 ∧ at_ (lenR + 7) < 0x80 then false
  else true

def isDefinedHashtypeSignature (vchSig : Bytes) : Bool :=
  match vchSig.getLast? with
  | none => false
  | some b => let nHashType := b &&& 0x7f; 1 ≤ nHashType ∧ nHashType ≤ 3

variable (keys : PubKeyOps) (flags : ScriptVerifyFlags)

def checkSignatureEncoding (vchSig : Bytes) : Eval Unit :=
  if vchSig.isEmpty then pure ()
  else if (flags .derSig || flags .lowS || flags .strictEnc) && !isValidSignatureEncoding vchSig then
    scriptFail .sigDer
  else if flags .lowS && !keys.checkLowS vchSig.dropLast then scriptFail .sigHighS
  else if flags .strictEnc && !isDefinedHashtypeSignature vchSig then scriptFail .sigHashtype
  else pure ()

def checkPubKeyEncoding (vchPubKey : Bytes) (sigversion : SigVersion) : Eval Unit :=
  if flags .strictEnc && !isCompressedOrUncompressedPubKey vchPubKey then scriptFail .pubkeyType
  else if flags .witnessPubkeyType && sigversion = .witnessV0 && !isCompressedPubKey vchPubKey then
    scriptFail .witnessPubkeyType
  else pure ()
end

/-- Each round drops a match or one instruction, so the length is fuel enough. -/
def findAndDeleteLoop (b : CScript) : Nat → CScript → Nat × CScript
  | 0, pc => (0, pc)
  | fuel + 1, pc =>
    if b.isPrefixOf pc then
      let (found, rest) := findAndDeleteLoop b fuel (pc.drop b.length)
      (found + 1, rest)
    else
      match getScriptOp pc with
      | none => (0, pc)
      | some op =>
        let (found, rest) := findAndDeleteLoop b fuel op.rest
        (found, pc.take (pc.length - op.rest.length) ++ rest)

def findAndDelete (script b : CScript) : Nat × CScript :=
  if b.isEmpty then (0, script) else findAndDeleteLoop b (script.length + 1) script

/-- The condition stack stores its size and the first false position. -/
structure ConditionStack where
  stackSize : Nat
  firstFalsePos : Option Nat
  deriving DecidableEq, Repr

namespace ConditionStack

def new : ConditionStack := ⟨0, none⟩

def empty (c : ConditionStack) : Bool := c.stackSize = 0

def allTrue (c : ConditionStack) : Bool := c.firstFalsePos.isNone

def pushBack (c : ConditionStack) (f : Bool) : ConditionStack :=
  ⟨c.stackSize + 1, if c.firstFalsePos = none ∧ f = false then some c.stackSize else c.firstFalsePos⟩

def popBack (c : ConditionStack) : ConditionStack :=
  ⟨c.stackSize - 1, if c.firstFalsePos = some (c.stackSize - 1) then none else c.firstFalsePos⟩

def toggleTop (c : ConditionStack) : ConditionStack :=
  match c.firstFalsePos with
  | none => ⟨c.stackSize, some (c.stackSize - 1)⟩
  | some pos => if pos = c.stackSize - 1 then ⟨c.stackSize, none⟩ else c

end ConditionStack

inductive UnaryOp where
  | add1 | sub1 | negate | abs | not | notEqual0
  deriving DecidableEq, Repr

inductive BinaryOp where
  | add | sub | boolAnd | boolOr | numEqual | numEqualVerify | numNotEqual | lessThan | greaterThan
  | lessThanOrEqual | greaterThanOrEqual | min | max
  deriving DecidableEq, Repr

inductive HashOp where
  | ripemd160 | sha1 | sha256 | hash160 | hash256
  deriving DecidableEq, Repr

inductive Op where
  | smallInt (n : Int)
  | nop | checkLockTimeVerify | checkSequenceVerify | upgradableNop
  | cond (negated : Bool) | else_ | endIf | verify | return_
  | toAltStack | fromAltStack | drop2 | dup2 | dup3 | over2 | rot2 | swap2 | ifDup | depth
  | drop | dup | nip | over | pick (roll : Bool) | rot | swap | tuck | size
  | equal (verify : Bool) | unary (op : UnaryOp) | binary (op : BinaryOp) | within
  | hash (op : HashOp) | codeSeparator
  | checkSig (verify : Bool) | checkSigAdd | checkMultiSig (verify : Bool)
  | bad
  deriving DecidableEq, Repr

def opcodeTable : List (UInt8 × Op) :=
  [(0x4f, .smallInt (-1)), (0x61, .nop), (0x63, .cond false), (0x64, .cond true), (0x67, .else_),
    (0x68, .endIf), (0x69, .verify), (0x6a, .return_), (0x6b, .toAltStack), (0x6c, .fromAltStack),
    (0x6d, .drop2), (0x6e, .dup2), (0x6f, .dup3), (0x70, .over2), (0x71, .rot2), (0x72, .swap2),
    (0x73, .ifDup), (0x74, .depth), (0x75, .drop), (0x76, .dup), (0x77, .nip), (0x78, .over),
    (0x79, .pick false), (0x7a, .pick true), (0x7b, .rot), (0x7c, .swap), (0x7d, .tuck),
    (0x82, .size), (0x87, .equal false), (0x88, .equal true),
    (0x8b, .unary .add1), (0x8c, .unary .sub1), (0x8f, .unary .negate), (0x90, .unary .abs),
    (0x91, .unary .not), (0x92, .unary .notEqual0),
    (0x93, .binary .add), (0x94, .binary .sub), (0x9a, .binary .boolAnd), (0x9b, .binary .boolOr),
    (0x9c, .binary .numEqual), (0x9d, .binary .numEqualVerify), (0x9e, .binary .numNotEqual),
    (0x9f, .binary .lessThan), (0xa0, .binary .greaterThan), (0xa1, .binary .lessThanOrEqual),
    (0xa2, .binary .greaterThanOrEqual), (0xa3, .binary .min), (0xa4, .binary .max),
    (0xa5, .within), (0xa6, .hash .ripemd160), (0xa7, .hash .sha1), (0xa8, .hash .sha256),
    (0xa9, .hash .hash160), (0xaa, .hash .hash256), (0xab, .codeSeparator),
    (0xac, .checkSig false), (0xad, .checkSig true), (0xae, .checkMultiSig false),
    (0xaf, .checkMultiSig true), (0xb0, .upgradableNop), (0xb1, .checkLockTimeVerify),
    (0xb2, .checkSequenceVerify), (0xb3, .upgradableNop), (0xb4, .upgradableNop),
    (0xb5, .upgradableNop), (0xb6, .upgradableNop), (0xb7, .upgradableNop), (0xb8, .upgradableNop),
    (0xb9, .upgradableNop), (0xba, .checkSigAdd)]

def decodeOp (opcode : UInt8) : Op :=
  if op1 ≤ opcode ∧ opcode ≤ op16 then .smallInt (decodeOpN opcode)
  else (opcodeTable.lookup opcode).getD .bad

def disabledOpcodes : List UInt8 :=
  [0x7e, 0x7f, 0x80, 0x81, 0x83, 0x84, 0x85, 0x86, 0x8d, 0x8e, 0x95, 0x96, 0x97, 0x98, 0x99]

def boolToInt (b : Bool) : Int := if b then 1 else 0

def vchBool (b : Bool) : Bytes := if b then [1] else []

def UnaryOp.apply (op : UnaryOp) (bn : Int) : Int :=
  match op with
  | .add1 => bn + 1
  | .sub1 => bn - 1
  | .negate => -bn
  | .abs => if bn < 0 then -bn else bn
  | .not => boolToInt (bn == 0)
  | .notEqual0 => boolToInt (bn != 0)

def BinaryOp.apply (op : BinaryOp) (bn1 bn2 : Int) : Int :=
  match op with
  | .add => bn1 + bn2
  | .sub => bn1 - bn2
  | .boolAnd => boolToInt (bn1 != 0 && bn2 != 0)
  | .boolOr => boolToInt (bn1 != 0 || bn2 != 0)
  | .numEqual => boolToInt (bn1 == bn2)
  | .numEqualVerify => boolToInt (bn1 == bn2)
  | .numNotEqual => boolToInt (bn1 != bn2)
  | .lessThan => boolToInt (bn1 < bn2)
  | .greaterThan => boolToInt (bn1 > bn2)
  | .lessThanOrEqual => boolToInt (bn1 ≤ bn2)
  | .greaterThanOrEqual => boolToInt (bn1 ≥ bn2)
  | .min => if bn1 < bn2 then bn1 else bn2
  | .max => if bn1 > bn2 then bn1 else bn2

def HashOp.apply (h : Hashes) (op : HashOp) (vch : Bytes) : Bytes :=
  match op with
  | .ripemd160 => h.ripemd160 vch
  | .sha1 => h.sha1 vch
  | .sha256 => (h.sha256 vch).val
  | .hash160 => h.ripemd160 (h.sha256 vch).val
  | .hash256 => (h.sha256 (h.sha256 vch).val).val

structure EvalState where
  stack : Stack
  altstack : Stack
  vfExec : ConditionStack
  nOpCount : Int
  pbegincodehash : CScript
  opcodePos : UInt32
  execdata : ScriptExecutionData

structure EvalEnv where
  hashes : Hashes
  keys : PubKeyOps
  flags : ScriptVerifyFlags
  checker : SignatureChecker
  sigversion : SigVersion

section
variable (env : EvalEnv)

/-- A `scriptnum_error` is caught and reported as an unknown error. -/
def scriptNum (vch : Bytes) (nMaxNumSize : Nat) : Eval Int :=
  match ofVch vch (env.flags .minimalData) nMaxNumSize with
  | some n => pure n
  | none => scriptFail .unknownError

def evalChecksigPreTapscript (vchSig vchPubKey : Bytes) (pbegincodehash : CScript) : Eval Bool := do
  let (found, scriptCode) :=
    if env.sigversion = .base then findAndDelete pbegincodehash (pushData vchSig)
    else (0, pbegincodehash)
  if found > 0 && env.flags .constScriptCode then scriptFail .sigFindAndDelete
  checkSignatureEncoding env.keys env.flags vchSig
  checkPubKeyEncoding env.flags vchPubKey env.sigversion
  let fSuccess ← env.checker.checkECDSASignature vchSig vchPubKey scriptCode env.sigversion
  if !fSuccess && env.flags .nullFail && !vchSig.isEmpty then scriptFail .sigNullFail
  pure fSuccess

def evalChecksigTapscript (sig pubkey : Bytes) (execdata : ScriptExecutionData) :
    Eval (Bool × ScriptExecutionData) := do
  let success := !sig.isEmpty
  let execdata ←
    if success then do
      let some left := execdata.validationWeightLeft | throw .abort
      let left := left - validationWeightPerSigopPassed
      if left < 0 then scriptFail .tapscriptValidationWeight
      pure { execdata with validationWeightLeft := some left }
    else pure execdata
  if pubkey.isEmpty then scriptFail .tapscriptEmptyPubkey
  else if pubkey.length = 32 then
    if success then do
      let execdata ← env.checker.checkSchnorrSignature sig pubkey env.sigversion execdata .unknownError
      pure (success, execdata)
    else pure (success, execdata)
  else if env.flags .discourageUpgradablePubkeyType then
    scriptFail .discourageUpgradablePubkeyType
  else pure (success, execdata)

def evalChecksig (sig pubkey : Bytes) (st : EvalState) : Eval (Bool × ScriptExecutionData) :=
  match env.sigversion with
  | .base | .witnessV0 => do
    let success ← evalChecksigPreTapscript env sig pubkey st.pbegincodehash
    pure (success, st.execdata)
  | .tapscript => evalChecksigTapscript env sig pubkey st.execdata
  | .taproot => throw .abort

def dropSignatures (scriptCode : CScript) : List Bytes → Eval CScript
  | [] => pure scriptCode
  | vchSig :: sigs => do
    let (found, code) :=
      if env.sigversion = .base then findAndDelete scriptCode (pushData vchSig) else (0, scriptCode)
    if found > 0 && env.flags .constScriptCode then scriptFail .sigFindAndDelete
    dropSignatures code sigs

/-- Match signatures against keys in order; a key is used at most once. -/
def matchSignatures (scriptCode : CScript) : List Bytes → List Bytes → Eval Bool
  | _, [] => pure true
  | [], _ :: _ => pure false
  | vchPubKey :: pubkeys, vchSig :: sigs => do
    checkSignatureEncoding env.keys env.flags vchSig
    checkPubKeyEncoding env.flags vchPubKey env.sigversion
    let fOk ← env.checker.checkECDSASignature vchSig vchPubKey scriptCode env.sigversion
    let left := if fOk then sigs else vchSig :: sigs
    if left.length > pubkeys.length then pure false else matchSignatures scriptCode pubkeys left

def evalCheckMultiSig (verify : Bool) (st : EvalState) : Eval EvalState := do
  if env.sigversion = .tapscript then scriptFail .tapscriptCheckMultiSig
  let some vchKeys := st.stack[0]? | scriptFail .invalidStackOperation
  let nKeysCount := getint (← scriptNum env vchKeys 4)
  if nKeysCount < 0 ∨ nKeysCount > maxPubkeysPerMultisig then scriptFail .pubkeyCount
  let nOpCount := st.nOpCount + nKeysCount
  if nOpCount > maxOpsPerScript then scriptFail .opCount
  let nKeys := nKeysCount.toNat
  let some vchSigs := st.stack[nKeys + 1]? | scriptFail .invalidStackOperation
  let nSigsCount := getint (← scriptNum env vchSigs 4)
  if nSigsCount < 0 ∨ nSigsCount > nKeysCount then scriptFail .sigCount
  let nSigs := nSigsCount.toNat
  if st.stack.length < 3 + nKeys + nSigs then scriptFail .invalidStackOperation
  let pubkeys := (st.stack.drop 1).take nKeys
  let sigs := (st.stack.drop (nKeys + 2)).take nSigs
  let scriptCode ← dropSignatures env st.pbegincodehash sigs
  let fSuccess ← matchSignatures env scriptCode pubkeys sigs
  if !fSuccess && env.flags .nullFail && sigs.any (fun sig => !sig.isEmpty) then
    scriptFail .sigNullFail
  match st.stack.drop (2 + nKeys + nSigs) with
  | [] => scriptFail .invalidStackOperation
  | dummy :: rest =>
    if env.flags .nullDummy && !dummy.isEmpty then scriptFail .sigNullDummy
    if verify then
      if fSuccess then pure { st with stack := rest, nOpCount := nOpCount }
      else scriptFail .checkMultiSigVerify
    else pure { st with stack := vchBool fSuccess :: rest, nOpCount := nOpCount }

def sequenceLocktimeDisableFlag : Int := 2 ^ 31

def evalLockTime (enabled : Bool) (disableFlag : Bool) (check : Int → Bool) (st : EvalState) :
    Eval EvalState := do
  if !enabled then pure st
  else
    let some vch := st.stack[0]? | scriptFail .invalidStackOperation
    let n ← scriptNum env vch 5
    if n < 0 then scriptFail .negativeLocktime
    else if disableFlag && n / sequenceLocktimeDisableFlag % 2 ≠ 0 then pure st
    else if !check n then scriptFail .unsatisfiedLocktime
    else pure st

def evalCond (negated fExec : Bool) (st : EvalState) : Eval EvalState := do
  if !fExec then pure { st with vfExec := st.vfExec.pushBack false }
  else
    match st.stack with
    | [] => scriptFail .unbalancedConditional
    | vch :: stack => do
      let minimal : Bool := vch.length ≤ 1 ∧ (vch.length = 1 → vch.head? = some 1)
      if env.sigversion = .tapscript ∧ ¬ minimal then scriptFail .tapscriptMinimalIf
      if env.sigversion = .witnessV0 ∧ env.flags .minimalIf ∧ ¬ minimal then scriptFail .minimalIf
      let fValue := if negated then !castToBool vch else castToBool vch
      pure { st with stack := stack, vfExec := st.vfExec.pushBack fValue }

def evalPick (roll : Bool) (st : EvalState) : Eval EvalState :=
  match st.stack with
  | top :: x :: rest => do
    let n := getint (← scriptNum env top 4)
    let stack := x :: rest
    if n < 0 ∨ n ≥ stack.length then scriptFail .invalidStackOperation
    else
      let vch := stack.getD n.toNat []
      pure { st with stack := vch :: (if roll then stack.eraseIdx n.toNat else stack) }
  | _ => scriptFail .invalidStackOperation

def evalStackOp (op : Op) (stack : Stack) : Eval Stack :=
  match op, stack with
  | .drop2, _ :: _ :: r => pure r
  | .dup2, x2 :: x1 :: r => pure (x2 :: x1 :: x2 :: x1 :: r)
  | .dup3, x3 :: x2 :: x1 :: r => pure (x3 :: x2 :: x1 :: x3 :: x2 :: x1 :: r)
  | .over2, x4 :: x3 :: x2 :: x1 :: r => pure (x2 :: x1 :: x4 :: x3 :: x2 :: x1 :: r)
  | .rot2, x6 :: x5 :: x4 :: x3 :: x2 :: x1 :: r => pure (x2 :: x1 :: x6 :: x5 :: x4 :: x3 :: r)
  | .swap2, x4 :: x3 :: x2 :: x1 :: r => pure (x2 :: x1 :: x4 :: x3 :: r)
  | .ifDup, x :: r => pure (if castToBool x then x :: x :: r else x :: r)
  | .depth, stack => pure (serialize stack.length :: stack)
  | .drop, _ :: r => pure r
  | .dup, x :: r => pure (x :: x :: r)
  | .nip, x2 :: _ :: r => pure (x2 :: r)
  | .over, x2 :: x1 :: r => pure (x1 :: x2 :: x1 :: r)
  | .rot, x3 :: x2 :: x1 :: r => pure (x1 :: x3 :: x2 :: r)
  | .swap, x2 :: x1 :: r => pure (x1 :: x2 :: r)
  | .tuck, x2 :: x1 :: r => pure (x2 :: x1 :: x2 :: r)
  | .size, x :: r => pure (serialize x.length :: x :: r)
  | _, _ => scriptFail .invalidStackOperation

def evalBinary (op : BinaryOp) (st : EvalState) : Eval EvalState :=
  match st.stack with
  | x2 :: x1 :: r => do
    let bn1 ← scriptNum env x1 4
    let bn2 ← scriptNum env x2 4
    let out := serialize (op.apply bn1 bn2)
    if op = .numEqualVerify then
      if castToBool out then pure { st with stack := r } else scriptFail .numEqualVerify
    else pure { st with stack := out :: r }
  | _ => scriptFail .invalidStackOperation

def evalCheckSig (verify : Bool) (st : EvalState) : Eval EvalState :=
  match st.stack with
  | vchPubKey :: vchSig :: r => do
    let (fSuccess, execdata) ← evalChecksig env vchSig vchPubKey st
    if verify then
      if fSuccess then pure { st with stack := r, execdata := execdata }
      else scriptFail .checkSigVerify
    else pure { st with stack := vchBool fSuccess :: r, execdata := execdata }
  | _ => scriptFail .invalidStackOperation

def evalCheckSigAdd (st : EvalState) : Eval EvalState :=
  if env.sigversion = .base ∨ env.sigversion = .witnessV0 then scriptFail .badOpcode
  else
    match st.stack with
    | pubkey :: vchNum :: sig :: r => do
      let num ← scriptNum env vchNum 4
      let (success, execdata) ← evalChecksig env sig pubkey st
      pure { st with stack := serialize (num + boolToInt success) :: r, execdata := execdata }
    | _ => scriptFail .invalidStackOperation

/-- The switch over the opcodes; `pc` is the script after the instruction. -/
def evalOp (op : Op) (fExec : Bool) (pc : CScript) (st : EvalState) : Eval EvalState :=
  match op with
  | .smallInt n => pure { st with stack := serialize n :: st.stack }
  | .nop => pure st
  | .checkLockTimeVerify =>
    evalLockTime env (env.flags .checkLockTimeVerify) false env.checker.checkLockTime st
  | .checkSequenceVerify =>
    evalLockTime env (env.flags .checkSequenceVerify) true env.checker.checkSequence st
  | .upgradableNop =>
    if env.flags .discourageUpgradableNops then scriptFail .discourageUpgradableNops else pure st
  | .cond negated => evalCond env negated fExec st
  | .else_ =>
    if st.vfExec.empty then scriptFail .unbalancedConditional
    else pure { st with vfExec := st.vfExec.toggleTop }
  | .endIf =>
    if st.vfExec.empty then scriptFail .unbalancedConditional
    else pure { st with vfExec := st.vfExec.popBack }
  | .verify =>
    match st.stack with
    | [] => scriptFail .invalidStackOperation
    | x :: r => if castToBool x then pure { st with stack := r } else scriptFail .verify
  | .return_ => scriptFail .opReturn
  | .toAltStack =>
    match st.stack with
    | [] => scriptFail .invalidStackOperation
    | x :: r => pure { st with stack := r, altstack := x :: st.altstack }
  | .fromAltStack =>
    match st.altstack with
    | [] => scriptFail .invalidAltstackOperation
    | x :: r => pure { st with stack := x :: st.stack, altstack := r }
  | .pick roll => evalPick env roll st
  | .equal verify =>
    match st.stack with
    | x2 :: x1 :: r =>
      if verify then
        if x1 = x2 then pure { st with stack := r } else scriptFail .equalVerify
      else pure { st with stack := vchBool (x1 = x2) :: r }
    | _ => scriptFail .invalidStackOperation
  | .unary op =>
    match st.stack with
    | x :: r => do
      let bn ← scriptNum env x 4
      pure { st with stack := serialize (op.apply bn) :: r }
    | [] => scriptFail .invalidStackOperation
  | .binary op => evalBinary env op st
  | .within =>
    match st.stack with
    | x3 :: x2 :: x1 :: r => do
      let bn1 ← scriptNum env x1 4
      let bn2 ← scriptNum env x2 4
      let bn3 ← scriptNum env x3 4
      pure { st with stack := vchBool (bn2 ≤ bn1 ∧ bn1 < bn3) :: r }
    | _ => scriptFail .invalidStackOperation
  | .hash op =>
    match st.stack with
    | x :: r => pure { st with stack := op.apply env.hashes x :: r }
    | [] => scriptFail .invalidStackOperation
  | .codeSeparator =>
    pure { st with pbegincodehash := pc,
                   execdata := { st.execdata with codeseparatorPos := some st.opcodePos } }
  | .checkSig verify => evalCheckSig env verify st
  | .checkSigAdd => evalCheckSigAdd env st
  | .checkMultiSig verify => evalCheckMultiSig env verify st
  | .bad => scriptFail .badOpcode
  | op => do
    let stack ← evalStackOp op st.stack
    pure { st with stack := stack }

def countsOps : Bool := env.sigversion = .base ∨ env.sigversion = .witnessV0

def evalInstruction (op : ScriptOp) (st : EvalState) : Eval EvalState := do
  let fExec := st.vfExec.allTrue
  if op.vch.length > maxScriptElementSize then scriptFail .pushSize
  let nOpCount := if countsOps env ∧ op.opcode > op16 then st.nOpCount + 1 else st.nOpCount
  if nOpCount > maxOpsPerScript then scriptFail .opCount
  if disabledOpcodes.contains op.opcode then scriptFail .disabledOpcode
  if op.opcode = opCodeSeparator ∧ env.sigversion = .base ∧ env.flags .constScriptCode then
    scriptFail .opCodeSeparator
  let st := { st with nOpCount := nOpCount }
  let st ←
    if fExec ∧ op.opcode ≤ opPushData4 then
      if env.flags .minimalData ∧ ¬ checkMinimalPush op.vch op.opcode then scriptFail .minimalData
      else pure { st with stack := op.vch :: st.stack }
    else if fExec ∨ opIf ≤ op.opcode ∧ op.opcode ≤ opEndIf then
      evalOp env (decodeOp op.opcode) fExec op.rest st
    else pure st
  if st.stack.length + st.altstack.length > maxStackSize then scriptFail .stackSize
  pure { st with opcodePos := st.opcodePos + 1 }

def evalLoop (pc : CScript) (st : EvalState) : Eval EvalState :=
  if pc.isEmpty then pure st
  else
    match _h : getScriptOp pc with
    | none => scriptFail .badOpcode
    | some op => do
      let st ← evalInstruction env op st
      evalLoop op.rest st
termination_by pc.length
decreasing_by exact getScriptOp_rest_lt _h

def evalScript (stack : Stack) (script : CScript) (execdata : ScriptExecutionData) :
    Eval (Stack × ScriptExecutionData) := do
  if env.sigversion = .taproot then throw .abort
  if countsOps env ∧ script.length > maxScriptSize then scriptFail .scriptSize
  let st ← evalLoop env script
    { stack := stack, altstack := [], vfExec := .new, nOpCount := 0, pbegincodehash := script,
      opcodePos := 0, execdata := { execdata with codeseparatorPos := some 0xffffffff } }
  if ¬ st.vfExec.empty then scriptFail .unbalancedConditional
  pure (st.stack, st.execdata)
end

theorem evalLoop_nil (env : EvalEnv) (st : EvalState) : evalLoop env [] st = .ok st := by
  rw [evalLoop]
  rfl

variable {st : EvalState} {env : EvalEnv}

theorem evalLoop_step {pc : CScript} {op : ScriptOp} (hop : getScriptOp pc = some op) :
    evalLoop env pc st = (evalInstruction env op st >>= evalLoop env op.rest) := by
  have hne : pc.isEmpty = false := by
    cases pc with
    | nil => simp [getScriptOp] at hop
    | cons b bs => rfl
  rw [evalLoop]
  simp only [hne, Bool.false_eq_true, if_false]
  split
  · rename_i hn
    simp [hop] at hn
  · rename_i op' hn
    rw [hop] at hn
    cases hn
    rfl

theorem evalInstruction_op1 {rest : CScript} (hv : st.vfExec.allTrue = true)
    (hn : st.nOpCount ≤ maxOpsPerScript)
    (hsize : st.stack.length + st.altstack.length < maxStackSize) :
    evalInstruction env ⟨op1, [], rest⟩ st =
      .ok { st with stack := [1] :: st.stack, opcodePos := st.opcodePos + 1 } := by
  have hcount : ¬ op1 > op16 := by decide
  have hpush : ¬ op1 ≤ opPushData4 := by decide
  have hdis : op1 ∉ disabledOpcodes := by decide
  have hsep : op1 ≠ opCodeSeparator := by decide
  have hop : decodeOp op1 = .smallInt 1 := by decide
  have hone : serialize 1 = [1] := by decide
  have hle : ¬ (st.stack.length + 1 + st.altstack.length > maxStackSize) := by omega
  have hn' : ¬ (st.nOpCount > maxOpsPerScript) := by omega
  simp [evalInstruction, hcount, hpush, hdis, hsep, hop, hone, hv, evalOp, hn', hle]

theorem evalInstruction_push32 {rest : CScript} {data : Bytes} (hlen : data.length = 32)
    (hv : st.vfExec.allTrue = true) (hn : st.nOpCount ≤ maxOpsPerScript)
    (hsize : st.stack.length + st.altstack.length < maxStackSize) :
    evalInstruction env ⟨0x20, data, rest⟩ st =
      .ok { st with stack := data :: st.stack, opcodePos := st.opcodePos + 1 } := by
  have hcount : ¬ (0x20 : UInt8) > op16 := by decide
  have hpush : (0x20 : UInt8) ≤ opPushData4 := by decide
  have hdis : (0x20 : UInt8) ∉ disabledOpcodes := by decide
  have hsep : (0x20 : UInt8) ≠ opCodeSeparator := by decide
  have hmin : checkMinimalPush data 0x20 = true := by
    match data with
    | [] => simp at hlen
    | [_] => simp at hlen
    | x :: y :: rest =>
      simp only [checkMinimalPush, hlen]
      decide
  have hle : ¬ (st.stack.length + 1 + st.altstack.length > maxStackSize) := by omega
  have hn' : ¬ (st.nOpCount > maxOpsPerScript) := by omega
  have hl : ¬ data.length > maxScriptElementSize := by simp [hlen, maxScriptElementSize]
  simp [evalInstruction, hcount, hpush, hdis, hsep, hl, hv, hn', hle, hmin]

theorem evalLoop_quantumOutput {program : Bytes} (hp : program.length = 32)
    (hv : st.vfExec.allTrue = true) (hn : st.nOpCount ≤ maxOpsPerScript)
    (hsize : st.stack.length + st.altstack.length + 1 < maxStackSize) :
    evalLoop env (op1 :: 0x20 :: program) st =
      .ok { st with stack := program :: [1] :: st.stack, opcodePos := st.opcodePos + 1 + 1 } := by
  have hpush : evalInstruction env ⟨0x20, program, []⟩
      { st with stack := [1] :: st.stack, opcodePos := st.opcodePos + 1 } =
      .ok { st with stack := program :: [1] :: st.stack, opcodePos := st.opcodePos + 1 + 1 } :=
    evalInstruction_push32 hp hv hn (by simp; omega)
  rw [evalLoop_step (getScriptOp_op1 _), evalInstruction_op1 hv hn (by omega)]
  change evalLoop env (0x20 :: program) _ = _
  rw [evalLoop_step (getScriptOp_push32 hp), hpush]
  exact evalLoop_nil env _

end Byze
