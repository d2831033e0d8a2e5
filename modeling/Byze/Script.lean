import Byze.Transaction

/-! Scripts as byte strings: opcodes, reading one instruction, the shapes of
output scripts and the numbers scripts compute with. -/

namespace Byze

inductive ScriptError where
  | ok | unknownError | evalFalse | opReturn
  | scriptSize | pushSize | opCount | stackSize | sigCount | pubkeyCount
  | verify | equalVerify | checkMultiSigVerify | checkSigVerify | numEqualVerify
  | badOpcode | disabledOpcode | invalidStackOperation | invalidAltstackOperation
  | unbalancedConditional
  | negativeLocktime | unsatisfiedLocktime
  | sigHashtype | sigDer | minimalData | sigPushOnly | sigHighS | sigNullDummy | pubkeyType
  | cleanStack | minimalIf | sigNullFail
  | discourageUpgradableNops | discourageUpgradableWitnessProgram
  | discourageUpgradableTaprootVersion | discourageOpSuccess | discourageUpgradablePubkeyType
  | witnessProgramWrongLength | witnessProgramWitnessEmpty | witnessProgramMismatch
  | witnessMalleated | witnessMalleatedP2SH | witnessUnexpected | witnessPubkeyType
  | schnorrSigSize | schnorrSigHashtype | schnorrSig | taprootWrongControlSize
  | tapscriptValidationWeight | tapscriptCheckMultiSig | tapscriptMinimalIf | tapscriptEmptyPubkey
  | opCodeSeparator | sigFindAndDelete
  deriving DecidableEq, Repr

inductive ScriptVerifyFlag where
  | p2sh | strictEnc | derSig | lowS | nullDummy | sigPushOnly | minimalData
  | discourageUpgradableNops | cleanStack | checkLockTimeVerify | checkSequenceVerify | witness
  | discourageUpgradableWitnessProgram | minimalIf | nullFail | witnessPubkeyType
  | constScriptCode | taproot | discourageUpgradableTaprootVersion | discourageOpSuccess
  | discourageUpgradablePubkeyType
  deriving DecidableEq, Repr

abbrev ScriptVerifyFlags := ScriptVerifyFlag → Bool

def opPushData1 : UInt8 := 0x4c
def opPushData2 : UInt8 := 0x4d
def opPushData4 : UInt8 := 0x4e
def op0 : UInt8 := 0x00
def op1 : UInt8 := 0x51
def op16 : UInt8 := 0x60
def opIf : UInt8 := 0x63
def opEndIf : UInt8 := 0x68
def opEqual : UInt8 := 0x87
def opHash160 : UInt8 := 0xa9
def opCodeSeparator : UInt8 := 0xab

structure ScriptOp where
  opcode : UInt8
  vch : Bytes
  rest : CScript
  deriving DecidableEq, Repr

def pushSizeWidth (opcode : UInt8) : Nat :=
  if opcode < opPushData1 then 0
  else if opcode = opPushData1 then 1
  else if opcode = opPushData2 then 2
  else 4

def readPushSize (opcode : UInt8) (pc : CScript) : Nat :=
  if pushSizeWidth opcode = 0 then opcode.toNat
  else LittleEndian.decode (pc.take (pushSizeWidth opcode))

def getScriptOp : CScript → Option ScriptOp
  | [] => none
  | opcode :: pc =>
    if opcode ≤ opPushData4 then
      if pc.length < pushSizeWidth opcode then none
      else
        let nSize := readPushSize opcode pc
        let pc := pc.drop (pushSizeWidth opcode)
        if pc.length < nSize then none else some ⟨opcode, pc.take nSize, pc.drop nSize⟩
    else some ⟨opcode, [], pc⟩

theorem getScriptOp_rest_lt {pc : CScript} {op : ScriptOp} (h : getScriptOp pc = some op) :
    op.rest.length < pc.length := by
  cases pc with
  | nil => simp [getScriptOp] at h
  | cons opcode pc =>
    simp only [getScriptOp] at h
    split at h
    · split at h
      · cases h
      · split at h
        · cases h
        · cases h
          simp only [List.length_drop, List.length_cons]
          omega
    · cases h
      simp

theorem getScriptOp_op1 (rest : CScript) : getScriptOp (op1 :: rest) = some ⟨op1, [], rest⟩ := by
  rfl

theorem getScriptOp_push32 {program : Bytes} (hp : program.length = 32) :
    getScriptOp (0x20 :: program) = some ⟨0x20, program, []⟩ := by
  simp [getScriptOp, readPushSize, pushSizeWidth, hp, opPushData4, opPushData1]

def isPushOnly (script : CScript) : Bool :=
  if script.isEmpty then true
  else
    match _h : getScriptOp script with
    | none => false
    | some op => if op.opcode > op16 then false else isPushOnly op.rest
termination_by script.length
decreasing_by exact getScriptOp_rest_lt _h

def isPayToScriptHash (script : CScript) : Bool :=
  script.length = 23 ∧ script[0]? = some opHash160 ∧ script[1]? = some 0x14 ∧ script[22]? = some opEqual

def isPayToAnchor (version : Nat) (program : Bytes) : Bool := version = 1 ∧ program = [0x4e, 0x73]

def decodeOpN (opcode : UInt8) : Nat := if opcode = op0 then 0 else opcode.toNat - (op1.toNat - 1)

theorem decodeOpN_eq_one {b : UInt8} (hb : decodeOpN b = 1) : b = op1 := by
  by_cases h0 : b = op0
  · simp [decodeOpN, h0] at hb
  · apply UInt8.toNat_inj.mp
    simp only [decodeOpN, h0, if_false, op1, UInt8.toNat_ofNat] at hb ⊢
    omega

def isWitnessProgram (script : CScript) : Option (Nat × Bytes) :=
  if script.length < 4 ∨ script.length > 42 then none
  else
    match script with
    | version :: size :: program =>
      if version ≠ op0 ∧ (version < op1 ∨ version > op16) then none
      else if size.toNat + 2 = script.length then some (decodeOpN version, program)
      else none
    | _ => none

def checkMinimalPush (data : Bytes) (opcode : UInt8) : Bool :=
  match data with
  | [] => opcode = op0
  | [b] => if 1 ≤ b ∧ b ≤ 16 then false else if b = 0x81 then false else opcode = 1
  | _ =>
    if data.length ≤ 75 then opcode.toNat = data.length
    else if data.length ≤ 255 then opcode = opPushData1
    else if data.length ≤ 65535 then opcode = opPushData2
    else true

def pushData (data : Bytes) : CScript :=
  (if data.length < opPushData1.toNat then [UInt8.ofNat data.length]
    else if data.length ≤ 0xff then [opPushData1, UInt8.ofNat data.length]
    else if data.length ≤ 0xffff then opPushData2 :: LittleEndian.encode 2 data.length
    else opPushData4 :: LittleEndian.encode 4 data.length) ++ data

def castToBool : Bytes → Bool
  | [] => false
  | [b] => b ≠ 0 ∧ b ≠ 0x80
  | b :: vch => b ≠ 0 || castToBool vch

namespace CScriptNum

def absBytes : Nat → Nat → Bytes
  | 0, _ => []
  | fuel + 1, absvalue =>
    if absvalue = 0 then [] else UInt8.ofNat absvalue :: absBytes fuel (absvalue / 256)

/-- The absolute value has 64 bits, hence at most eight bytes. -/
def serialize (value : Int) : Bytes :=
  if value = 0 then []
  else
    let result := absBytes 8 value.natAbs
    let top := result.getLastD 0
    if top &&& 0x80 ≠ 0 then result ++ [if value < 0 then 0x80 else 0]
    else if value < 0 then result.dropLast ++ [top ||| 0x80]
    else result

def setVch (vch : Bytes) : Int :=
  match vch.getLast? with
  | none => 0
  | some top =>
    if top &&& 0x80 ≠ 0 then -((LittleEndian.decode vch - 0x80 * 256 ^ (vch.length - 1) : Nat) : Int)
    else LittleEndian.decode vch

def nonMinimal (vch : Bytes) : Bool :=
  match vch.reverse with
  | [] => false
  | [top] => top &&& 0x7f = 0
  | top :: second :: _ => top &&& 0x7f = 0 ∧ second &&& 0x80 = 0

/-- `none` stands for a `scriptnum_error`. -/
def ofVch (vch : Bytes) (fRequireMinimal : Bool) (nMaxNumSize : Nat) : Option Int :=
  if vch.length > nMaxNumSize then none
  else if fRequireMinimal ∧ nonMinimal vch then none
  else some (setVch vch)

def getint (value : Int) : Int :=
  if value > 2 ^ 31 - 1 then 2 ^ 31 - 1 else if value < -2 ^ 31 then -2 ^ 31 else value

end CScriptNum

end Byze
