import Byze.Coins

/-! Connecting a block to the chain: its transactions are checked against the
coins they spend, one after the other, and its coinbase may take the fees and
the subsidy. -/

namespace Byze

abbrev HeaderChain := List CBlockHeader

structure ConnectEnv extends NodeEnv where
  ops : LegacyOps

/-- A block to connect, whether its scripts are checked, which coins the cache
has fetched and whether its undo data can be written. -/
structure ConnectCall where
  block : CBlock
  fScriptChecks : Bool
  fetched : COutPoint → Bool
  undoWritten : Bool

def scriptErrorString : ScriptError → String
  | .ok => "No error"
  | .evalFalse =>
    "Script evaluated without error but finished with a false/empty top stack element"
  | .verify => "Script failed an OP_VERIFY operation"
  | .equalVerify => "Script failed an OP_EQUALVERIFY operation"
  | .checkMultiSigVerify => "Script failed an OP_CHECKMULTISIGVERIFY operation"
  | .checkSigVerify => "Script failed an OP_CHECKSIGVERIFY operation"
  | .numEqualVerify => "Script failed an OP_NUMEQUALVERIFY operation"
  | .scriptSize => "Script is too big"
  | .pushSize => "Push value size limit exceeded"
  | .opCount => "Operation limit exceeded"
  | .stackSize => "Stack size limit exceeded"
  | .sigCount => "Signature count negative or greater than pubkey count"
  | .pubkeyCount => "Pubkey count negative or limit exceeded"
  | .badOpcode => "Opcode missing or not understood"
  | .disabledOpcode => "Attempted to use a disabled opcode"
  | .invalidStackOperation => "Operation not valid with the current stack size"
  | .invalidAltstackOperation => "Operation not valid with the current altstack size"
  | .opReturn => "OP_RETURN was encountered"
  | .unbalancedConditional => "Invalid OP_IF construction"
  | .negativeLocktime => "Negative locktime"
  | .unsatisfiedLocktime => "Locktime requirement not satisfied"
  | .sigHashtype => "Signature hash type missing or not understood"
  | .sigDer => "Non-canonical DER signature"
  | .minimalData => "Data push larger than necessary"
  | .sigPushOnly => "Only push operators allowed in signatures"
  | .sigHighS => "Non-canonical signature: S value is unnecessarily high"
  | .sigNullDummy => "Dummy CHECKMULTISIG argument must be zero"
  | .minimalIf => "OP_IF/NOTIF argument must be minimal"
  | .sigNullFail => "Signature must be zero for failed CHECK(MULTI)SIG operation"
  | .discourageUpgradableNops => "NOPx reserved for soft-fork upgrades"
  | .discourageUpgradableWitnessProgram => "Witness version reserved for soft-fork upgrades"
  | .discourageUpgradableTaprootVersion => "Taproot version reserved for soft-fork upgrades"
  | .discourageOpSuccess => "OP_SUCCESSx reserved for soft-fork upgrades"
  | .discourageUpgradablePubkeyType => "Public key version reserved for soft-fork upgrades"
  | .pubkeyType => "Public key is neither compressed or uncompressed"
  | .cleanStack => "Stack size must be exactly one after execution"
  | .witnessProgramWrongLength => "Witness program has incorrect length"
  | .witnessProgramWitnessEmpty => "Witness program was passed an empty witness"
  | .witnessProgramMismatch => "Witness program hash mismatch"
  | .witnessMalleated => "Witness requires empty scriptSig"
  | .witnessMalleatedP2SH => "Witness requires only-redeemscript scriptSig"
  | .witnessUnexpected => "Witness provided for non-witness script"
  | .witnessPubkeyType => "Using non-compressed keys in segwit"
  | .schnorrSigSize => "Invalid Schnorr signature size"
  | .schnorrSigHashtype => "Invalid Schnorr signature hash type"
  | .schnorrSig => "Invalid Schnorr signature"
  | .taprootWrongControlSize => "Invalid Taproot control block size"
  | .tapscriptValidationWeight => "Too much signature validation relative to witness weight"
  | .tapscriptCheckMultiSig => "OP_CHECKMULTISIG(VERIFY) is not available in tapscript"
  | .tapscriptMinimalIf => "OP_IF/NOTIF argument must be minimal in tapscript"
  | .tapscriptEmptyPubkey => "Empty public key in tapscript"
  | .opCodeSeparator => "Using OP_CODESEPARATOR in non-witness script"
  | .sigFindAndDelete => "Signature is found in scriptCode"
  | .unknownError => "unknown error"

def opInvalidOpcode : UInt8 := 0xff

def getAccurateSigOpCount (lastOpcode : UInt8) (script : CScript) : Nat :=
  match _h : getScriptOp script with
  | none => 0
  | some op =>
    (if op.opcode = 0xac ∨ op.opcode = 0xad then 1
      else if op.opcode = 0xae ∨ op.opcode = 0xaf then
        if op1 ≤ lastOpcode ∧ lastOpcode ≤ op16 then decodeOpN lastOpcode
        else maxPubkeysPerMultisig.toNat
      else 0) + getAccurateSigOpCount op.opcode op.rest
termination_by script.length
decreasing_by exact getScriptOp_rest_lt _h

def lastPush (vData : Bytes) (scriptSig : CScript) : Option Bytes :=
  if scriptSig.isEmpty then some vData
  else
    match _h : getScriptOp scriptSig with
    | none => none
    | some op => if op.opcode > op16 then none else lastPush op.vch op.rest
termination_by scriptSig.length
decreasing_by exact getScriptOp_rest_lt _h

def getP2SHSigOpCount (txin : CTxIn) (prevout : CTxOut) : Nat :=
  if isPayToScriptHash prevout.scriptPubKey then
    ((lastPush [] txin.scriptSig).map (getAccurateSigOpCount opInvalidOpcode)).getD 0
  else 0

/-- A quantum spend makes two signature checks. -/
def witnessSigOps (program : Nat × Bytes) : Nat :=
  if program.1 = 1 ∧ program.2.length = 32 then 2 else 0

def countWitnessSigOps (txin : CTxIn) (prevout : CTxOut) : Nat :=
  match isWitnessProgram prevout.scriptPubKey with
  | some program => witnessSigOps program
  | none =>
    if isPayToScriptHash prevout.scriptPubKey && isPushOnly txin.scriptSig then
      (((lastPush [] txin.scriptSig).bind isWitnessProgram).map witnessSigOps).getD 0
    else 0

def sequenceDisabled (nSequence : UInt32) : Bool := nSequence &&& 0x80000000 ≠ 0

def sequenceIsTime (nSequence : UInt32) : Bool := nSequence &&& 0x400000 ≠ 0

def sequenceValue (nSequence : UInt32) : Nat := (nSequence &&& 0xffff).toNat

/-- The locked height is an `int` in the source, which does not overflow for coins up
to this height. -/
def maxLockedCoinHeight : Nat := 2 ^ 31 - 2 ^ 16

/-- The heights of the coins are at most `maxLockedCoinHeight`. -/
def calculateSequenceLocks (block : CBlockIndex) : List (CTxIn × Nat) → Int × Int → Connect (Int × Int)
  | [], locks => pure locks
  | (txin, nCoinHeight) :: inputs, (nMinHeight, nMinTime) =>
    if sequenceDisabled txin.nSequence then calculateSequenceLocks block inputs (nMinHeight, nMinTime)
    else if sequenceIsTime txin.nSequence then
      match block.getAncestor (nCoinHeight - 1) with
      | none => throw .assertion
      | some ancestor =>
        calculateSequenceLocks block inputs (nMinHeight,
          max nMinTime (ancestor.getMedianTimePast + sequenceValue txin.nSequence * 2 ^ 9 - 1))
    else
      calculateSequenceLocks block inputs
        (max nMinHeight (nCoinHeight + sequenceValue txin.nSequence - 1), nMinTime)

def evaluateSequenceLocks (pprev : CBlockIndex) (locks : Int × Int) : Bool :=
  !(locks.1 ≥ (pprev.nHeight : Int) + 1 || locks.2 ≥ (pprev.getMedianTimePast : Int))

section
variable (env : ConnectEnv)

/-- Exceptions only ever take away flags that are put back. -/
def getBlockScriptFlags (nHeight : Nat) : ScriptVerifyFlags
  | .p2sh | .witness | .taproot => true
  | .derSig => env.bip66Height ≤ nHeight
  | .checkLockTimeVerify => env.bip65Height ≤ nHeight
  | .checkSequenceVerify => env.csvHeight ≤ nHeight
  | .nullDummy => env.segwitHeight ≤ nHeight
  | _ => false

def spentCoins (view : CoinsView) (vin : List CTxIn) : Connect (List Coin) :=
  vin.mapM fun txin =>
    match view.lookup txin.prevout with
    | none => throw .assertion
    | some coin => pure coin

def getTransactionSigOpCost (view : CoinsView) (tx : CTransaction) : Connect Nat := do
  let nSigOps := getLegacySigOpCount tx * witnessScaleFactor
  if tx.isCoinBase then pure nSigOps
  else
    let coins ← spentCoins view tx.vin
    let inputs := tx.vin.zip (coins.map Coin.out)
    pure (nSigOps + (inputs.map fun p => getP2SHSigOpCount p.1 p.2 * witnessScaleFactor).sum +
      (inputs.map fun p => countWitnessSigOps p.1 p.2).sum)

def checkInputScript (flags : ScriptVerifyFlags) (tx : CTransaction) (spentOutputs : List CTxOut)
    (nIn : Fin tx.vin.length) (txOut : CTxOut) : Eval Unit :=
  let txin := tx.vin.get nIn
  verifyScript env.hashes env.ops.toPubKeyOps flags (transactionSignatureChecker env.oqs env.ops
      { txTo := tx
        nIn := nIn.val
        amount := txOut.nValue
        txdata := PrecomputedTransactionData.init env.hashes tx spentOutputs false
        mdb := .assertFail
        nIn_lt := nIn.isLt
        txdata_init := fun _ hd => ⟨spentOutputs, false, hd⟩ })
    txin.scriptSig txOut.scriptPubKey (some txin.scriptWitness)

def checkInputScripts (flags : ScriptVerifyFlags) (view : CoinsView) (tx : CTransaction) :
    Connect Unit := do
  let coins ← spentCoins view tx.vin
  let spentOutputs := coins.map Coin.out
  ((List.finRange tx.vin.length).zip spentOutputs).forM fun p =>
    match checkInputScript env flags tx spentOutputs p.1 p.2 with
    | .ok _ => pure ()
    | .error (.fail e) =>
      rejectBlock ("block-script-verify-flag-failed (" ++ scriptErrorString e ++ ")")
    | .error .abort => throw .assertion

structure ConnectState where
  view : CoinsView
  nFees : Int
  nSigOpsCost : Nat

def sequenceLocks (pprev pindex : CBlockIndex) (tx : CTransaction) (prevHeights : List Nat) :
    Connect Bool :=
  if tx.version ≥ 2 && env.csvHeight ≤ pindex.nHeight then do
    let locks ← calculateSequenceLocks pindex (tx.vin.zip prevHeights) (-1, -1)
    pure (evaluateSequenceLocks pprev locks)
  else pure (evaluateSequenceLocks pprev (-1, -1))

def collectFees (pprev : CBlockIndex) (pindex : CBlockIndex) (tx : CTransaction)
    (st : ConnectState) : Connect Int := do
  let txfee ← st.view.checkTxInputs tx pindex.nHeight
  let nFees ← addAmount st.nFees txfee
  if !moneyRange nFees then rejectBlock "bad-txns-accumulated-fee-outofrange"
  else
    let coins ← spentCoins st.view tx.vin
    let final ← sequenceLocks env pprev pindex tx (coins.map Coin.nHeight)
    if !final then rejectBlock "bad-txns-nonfinal" else pure nFees

def countSigOps (tx : CTransaction) (st : ConnectState) : Connect Nat := do
  let cost ← getTransactionSigOpCost st.view tx
  if st.nSigOpsCost + cost > maxBlockSigopsCost then rejectBlock "bad-blk-sigops"
  else pure (st.nSigOpsCost + cost)

def checkScripts (pindex : CBlockIndex) (call : ConnectCall) (tx : CTransaction) (view : CoinsView) :
    Connect Unit :=
  if !tx.isCoinBase && call.fScriptChecks then
    checkInputScripts env (getBlockScriptFlags env pindex.nHeight) view tx
  else pure ()

def connectTransaction (pprev pindex : CBlockIndex) (call : ConnectCall) (tx : CTransaction)
    (st : ConnectState) : Connect ConnectState := do
  let nFees ← if tx.isCoinBase then pure st.nFees else collectFees env pprev pindex tx st
  let nSigOpsCost ← countSigOps tx st
  checkScripts env pindex call tx st.view
  let view ← updateCoins call.fetched env.hashes tx pindex.nHeight st.view
  pure ⟨view, nFees, nSigOpsCost⟩

def connectTransactions (pprev pindex : CBlockIndex) (call : ConnectCall) :
    List CTransaction → ConnectState → Connect ConnectState
  | [], st => pure st
  | tx :: vtx, st => do
    let st ← connectTransaction env pprev pindex call tx st
    connectTransactions pprev pindex call vtx st

def Uint256.ofNat (n : Nat) : Uint256 := ⟨LittleEndian.encode 32 n, LittleEndian.encode_length 32 n⟩

def isBIP30Repeat (nHeight : Nat) (hash : Uint256) : Bool :=
  (nHeight = 91842 && hash =
    Uint256.ofNat 0x00000000000a4d0a398161ffc163c503763b1f4360639393e0e4c8e300e0caec) ||
  (nHeight = 91880 && hash = Uint256.ofNat 0x00000000000743f190a18c5577a3c2d2a1f610ae9601ac046a38084ccb7cd721)

def bip34ImpliesBip30Limit : Nat := 1983702

def HeaderChain.hashAt (chain : HeaderChain) (height : Nat) : Option Uint256 :=
  if height = 0 then some env.hashGenesisBlock
  else (chain.reverse[height - 1]?).map env.getHash

/-- The BIP34 hash is zero on every network. -/
def enforcesBIP30 (chain : HeaderChain) (hash : Uint256) : Bool :=
  (!isBIP30Repeat (chain.length + 1) hash &&
    HeaderChain.hashAt env chain env.bip34Height ≠ some Uint256.zero) ||
  chain.length + 1 ≥ bip34ImpliesBip30Limit

def overwritesCoin (view : CoinsView) (tx : CTransaction) : Bool :=
  (List.range tx.vout.length).any fun o => view.haveCoin ⟨tx.getHash env.hashes, UInt32.ofNat o⟩

def HeaderChain.index : HeaderChain → CBlockIndex
  | [] => .genesis (genesisTime env.chain) (genesisBits env.chain)
  | header :: chain => .next (index chain) header.nTime.toNat header.nBits.toNat

def connectContents (chain : HeaderChain) (view : CoinsView) (call : ConnectCall) :
    Connect CoinsView := do
  let block := call.block
  let pprev := HeaderChain.index env chain
  let pindex := HeaderChain.index env (block.toCBlockHeader :: chain)
  if enforcesBIP30 env chain (env.getHash block.toCBlockHeader) &&
      block.vtx.any (overwritesCoin env view) then rejectBlock "bad-txns-BIP30"
  else
    let st ← connectTransactions env pprev pindex call block.vtx ⟨view, 0, 0⟩
    let blockReward ← addAmount st.nFees (getBlockSubsidy env.chain pindex.nHeight)
    match block.vtx with
    | [] => throw .assertion
    | coinbase :: _ =>
      let valueOut ← coinbase.getValueOut
      if valueOut > blockReward then rejectBlock "bad-cb-amount"
      else if !call.undoWritten then throw (.exception "Failed to write undo data.")
      else pure st.view

def connectBlock (chain : HeaderChain) (view : CoinsView) (call : ConnectCall) :
    Connect CoinsView :=
  match checkBlock env.toNodeEnv call.block true true with
  | .error r =>
    if r.result = .mutated then
      throw (.exception "Corrupt block found indicating potential hardware failure.")
    else throw (.reject r)
  | .ok () =>
    if env.getHash call.block.toCBlockHeader = env.hashGenesisBlock then pure view
    else connectContents env chain view call

/-- The blocks after the genesis block, connected one after the other, the last
one first. The coinbase of the genesis block is not among the coins. -/
def connectChain : List ConnectCall → Connect CoinsView
  | [] => pure ∅
  | call :: calls => do
    let view ← connectChain calls
    connectBlock env (calls.map fun call => call.block.toCBlockHeader) view call
end

end Byze
