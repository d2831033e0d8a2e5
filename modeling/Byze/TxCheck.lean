import Byze.QuantumVerify

/-! Checks of a transaction that need no context, its lock time, its legacy
signature operations, and the merkle root over a list of transactions. -/

namespace Byze

def maxBlockWeight : Nat := 4000000
def maxBlockSigopsCost : Nat := 80000
def maxMoney : Int := 21000000 * 100000000
def sequenceFinal : UInt32 := 0xffffffff

def moneyRange (nValue : Int) : Bool := nValue ≥ 0 ∧ nValue ≤ maxMoney

def checkOutputValues : Int → List CTxOut → Except String Unit
  | _, [] => pure ()
  | nValueOut, txout :: vout =>
    if txout.nValue < 0 then throw "bad-txns-vout-negative"
    else if txout.nValue > maxMoney then throw "bad-txns-vout-toolarge"
    else if !moneyRange (nValueOut + txout.nValue) then throw "bad-txns-txouttotal-toolarge"
    else checkOutputValues (nValueOut + txout.nValue) vout

def checkTransaction (tx : CTransaction) : Except String Unit := do
  if tx.vin = [] then throw "bad-txns-vin-empty"
  if tx.vout = [] then throw "bad-txns-vout-empty"
  if (tx.serialize false).length * witnessScaleFactor > maxBlockWeight then
    throw "bad-txns-oversize"
  checkOutputValues 0 tx.vout
  if ¬ (tx.vin.map CTxIn.prevout).Nodup then throw "bad-txns-inputs-duplicate"
  if tx.isCoinBase then
    if tx.vin.any (fun txin => txin.scriptSig.length < 2 || txin.scriptSig.length > 100) then
      throw "bad-cb-length"
  else if tx.vin.any (fun txin => txin.prevout.isNull) then throw "bad-txns-prevout-null"

def getSigOpCount (script : CScript) : Nat :=
  match _h : getScriptOp script with
  | none => 0
  | some op =>
    (if op.opcode = 0xac ∨ op.opcode = 0xad then 1
      else if op.opcode = 0xae ∨ op.opcode = 0xaf then maxPubkeysPerMultisig.toNat
      else 0) + getSigOpCount op.rest
termination_by script.length
decreasing_by exact getScriptOp_rest_lt _h

def getLegacySigOpCount (tx : CTransaction) : Nat :=
  (tx.vin.map fun txin => getSigOpCount txin.scriptSig).sum +
    (tx.vout.map fun txout => getSigOpCount txout.scriptPubKey).sum

def isFinalTx (tx : CTransaction) (nBlockHeight : Nat) (nBlockTime : Int) : Bool :=
  if tx.nLockTime = 0 then true
  else if (tx.nLockTime.toNat : Int) <
      (if (tx.nLockTime.toNat : Int) < locktimeThreshold then (nBlockHeight : Int) else nBlockTime) then true
  else tx.vin.all fun txin => txin.nSequence = sequenceFinal

def hash256 (h : Hashes) (b : Bytes) : Uint256 := h.sha256 (h.sha256 b).val

def CTransaction.getHash (h : Hashes) (tx : CTransaction) : Uint256 := hash256 h (tx.serialize false)

def CTransaction.getWitnessHash (h : Hashes) (tx : CTransaction) : Uint256 :=
  hash256 h (tx.serialize true)

/-- One level of the tree; the last hash of an odd level is paired with itself. -/
def merkleLevel (h : Hashes) : List Uint256 → List Uint256
  | [] => []
  | [a] => [hash256 h (a.val ++ a.val)]
  | a :: b :: hashes => hash256 h (a.val ++ b.val) :: merkleLevel h hashes

def merkleRepeats : List Uint256 → Bool
  | a :: b :: hashes => a = b || merkleRepeats hashes
  | _ => false

theorem merkleLevel_length (h : Hashes) (hashes : List Uint256) :
    (merkleLevel h hashes).length = (hashes.length + 1) / 2 := by
  induction hashes using merkleLevel.induct with
  | case1 => rfl
  | case2 a => simp [merkleLevel]
  | case3 a b hashes ih =>
    simp only [merkleLevel, List.length_cons]
    omega

def computeMerkleRoot (h : Hashes) (hashes : List Uint256) : Uint256 × Bool :=
  match hashes with
  | [] => (Uint256.zero, false)
  | [a] => (a, false)
  | a :: b :: rest =>
    let r := computeMerkleRoot h (merkleLevel h (a :: b :: rest))
    (r.1, merkleRepeats (a :: b :: rest) || r.2)
termination_by hashes.length
decreasing_by
  rw [merkleLevel_length]
  simp only [List.length_cons]
  omega

end Byze
