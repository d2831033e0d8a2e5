import Byze.Serialize

/-! Transactions, their serialization with and without witness data, and the
weight computed from the two sizes. -/

namespace Byze

abbrev CScript := Bytes

structure COutPoint where
  hash : Uint256
  n : UInt32
  deriving DecidableEq

structure CTxIn where
  prevout : COutPoint
  scriptSig : CScript
  nSequence : UInt32
  scriptWitness : List Bytes
  deriving DecidableEq

structure CTxOut where
  nValue : Int
  scriptPubKey : CScript
  deriving DecidableEq

structure CTransaction where
  version : UInt32
  vin : List CTxIn
  vout : List CTxOut
  nLockTime : UInt32
  deriving DecidableEq

def COutPoint.isNull (o : COutPoint) : Bool := o.hash = Uint256.zero ∧ o.n = 0xffffffff

def CTransaction.isCoinBase (tx : CTransaction) : Bool :=
  match tx.vin with
  | [txin] => txin.prevout.isNull
  | _ => false

def CTransaction.hasWitness (tx : CTransaction) : Bool :=
  tx.vin.any (fun txin => !txin.scriptWitness.isEmpty)

def COutPoint.serialize (o : COutPoint) : Bytes := o.hash.val ++ serializeUint32 o.n

def CTxIn.serialize (txin : CTxIn) : Bytes :=
  txin.prevout.serialize ++ serializeBytes txin.scriptSig ++ serializeUint32 txin.nSequence

def CTxOut.serialize (txout : CTxOut) : Bytes :=
  serializeInt64 txout.nValue ++ serializeBytes txout.scriptPubKey

def serializeWitness (stack : List Bytes) : Bytes := serializeVector serializeBytes stack

def CTransaction.serialize (allowWitness : Bool) (tx : CTransaction) : Bytes :=
  let flags := allowWitness && tx.hasWitness
  serializeUint32 tx.version ++ (if flags then serializeVector CTxIn.serialize [] ++ [1] else []) ++
    serializeVector CTxIn.serialize tx.vin ++ serializeVector CTxOut.serialize tx.vout ++
    (if flags then tx.vin.flatMap (fun txin => serializeWitness txin.scriptWitness) else []) ++
    serializeUint32 tx.nLockTime

def witnessScaleFactor : Nat := 4

def getTransactionWeight (tx : CTransaction) : Nat :=
  (tx.serialize false).length * (witnessScaleFactor - 1) + (tx.serialize true).length

@[simp] theorem COutPoint.serialize_length (o : COutPoint) : o.serialize.length = 36 := by
  simp [serialize, o.hash.property]

theorem CTxIn.serialize_length (txin : CTxIn) :
    txin.serialize.length = 40 + getSizeOfCompactSize txin.scriptSig.length + txin.scriptSig.length := by
  simp only [serialize, List.length_append, COutPoint.serialize_length, serializeBytes_length,
    serializeUint32_length]
  omega

theorem CTxOut.serialize_length (txout : CTxOut) : txout.serialize.length =
      8 + getSizeOfCompactSize txout.scriptPubKey.length + txout.scriptPubKey.length := by
  simp only [serialize, List.length_append, serializeInt64_length, serializeBytes_length]
  omega

theorem CTransaction.serialize_false_length (tx : CTransaction) :
    (tx.serialize false).length = 8 + getSizeOfCompactSize tx.vin.length +
      (tx.vin.map fun txin => txin.serialize.length).sum + getSizeOfCompactSize tx.vout.length +
      (tx.vout.map fun txout => txout.serialize.length).sum := by
  simp only [serialize, Bool.false_and, Bool.false_eq_true, if_false, List.append_nil,
    List.length_append, serializeUint32_length, serializeVector_length]
  omega

def CTransaction.witnessSize (tx : CTransaction) : Nat :=
  if tx.hasWitness then
    2 + (tx.vin.map fun txin => (serializeWitness txin.scriptWitness).length).sum
  else 0

theorem CTransaction.serialize_true_length (tx : CTransaction) :
    (tx.serialize true).length = (tx.serialize false).length + tx.witnessSize := by
  have h0 : getSizeOfCompactSize 0 = 1 := rfl
  cases hw : tx.hasWitness with
  | false => simp [serialize, witnessSize, hw]
  | true =>
    simp only [serialize, witnessSize, hw, Bool.and_self, Bool.false_and, Bool.false_eq_true,
      if_true, if_false, List.length_append, serializeVector_length, List.length_flatMap,
      List.length_nil, List.length_cons, List.map_nil, List.sum_nil]
    omega

theorem getTransactionWeight_eq (tx : CTransaction) :
    getTransactionWeight tx = witnessScaleFactor * (tx.serialize false).length + tx.witnessSize := by
  rw [getTransactionWeight, CTransaction.serialize_true_length]
  simp only [witnessScaleFactor]
  omega

theorem serializeWitness_length_of_ne_nil {stack : List Bytes} (hne : stack ≠ []) :
    2 ≤ (serializeWitness stack).length := by
  obtain ⟨item, rest, rfl⟩ := List.exists_cons_of_ne_nil hne
  have hpos := getSizeOfCompactSize_pos (item :: rest).length
  have hitem := getSizeOfCompactSize_pos item.length
  simp only [serializeWitness, serializeVector_length, List.map_cons, List.sum_cons, serializeBytes_length]
  omega

theorem CTransaction.four_le_witnessSize {tx : CTransaction} (hw : tx.hasWitness = true) :
    4 ≤ tx.witnessSize := by
  obtain ⟨txin, hmem, hstack⟩ := List.any_eq_true.mp hw
  have hne : txin.scriptWitness ≠ [] := by
    intro hnil
    simp [hnil] at hstack
  have hle : (serializeWitness txin.scriptWitness).length ≤
      (tx.vin.map fun txin => (serializeWitness txin.scriptWitness).length).sum :=
    List.le_sum_of_mem (List.mem_map_of_mem hmem)
  have htwo := serializeWitness_length_of_ne_nil hne
  simp only [witnessSize, hw, if_true]
  omega

theorem CTransaction.serialize_false_le (tx : CTransaction) :
    (tx.serialize false).length ≤ (tx.serialize true).length := by
  rw [serialize_true_length]
  omega

end Byze
