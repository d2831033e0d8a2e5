import Byze.QuantumVerify

/-! Blocks with their tail of quantum signatures, the weight of a block, and
the check of the tail against the block's hash. -/

namespace Byze

structure CBlockHeader where
  nVersion : Int
  hashPrevBlock : Uint256
  hashMerkleRoot : Uint256
  nTime : UInt32
  nBits : UInt32
  nNonce : UInt32
  deriving DecidableEq

structure QuantumSignatureData where
  xmssSignature : Bytes
  sphincsSignature : Bytes
  dualPublicKey : Bytes
  deriving DecidableEq

structure CBlock extends CBlockHeader where
  vtx : List CTransaction
  quantumSignatures : QuantumSignatureData
  deriving DecidableEq

def CBlockHeader.null : CBlockHeader := ⟨0, Uint256.zero, Uint256.zero, 0, 0, 0⟩

def CBlockHeader.isNull (header : CBlockHeader) : Bool := header.nBits = 0

def QuantumSignatureData.null : QuantumSignatureData := ⟨[], [], []⟩

def CBlockHeader.serialize (header : CBlockHeader) : Bytes :=
  LittleEndian.encode 4 (header.nVersion % 2 ^ 32).toNat ++ header.hashPrevBlock.val ++
    header.hashMerkleRoot.val ++ serializeUint32 header.nTime ++ serializeUint32 header.nBits ++
    serializeUint32 header.nNonce

def QuantumSignatureData.serialize (data : QuantumSignatureData) : Bytes :=
  serializeBytes data.xmssSignature ++ serializeBytes data.sphincsSignature ++
    serializeBytes data.dualPublicKey

def CBlock.serialize (allowWitness : Bool) (block : CBlock) : Bytes :=
  block.toCBlockHeader.serialize ++ serializeVector (CTransaction.serialize allowWitness) block.vtx ++
    block.quantumSignatures.serialize

def getBlockWeight (block : CBlock) : Nat :=
  (block.serialize false).length * (witnessScaleFactor - 1) + (block.serialize true).length

@[simp] theorem CBlockHeader.serialize_length (header : CBlockHeader) : header.serialize.length = 80 := by
  simp [serialize, header.hashPrevBlock.property, header.hashMerkleRoot.property]

theorem sum_getTransactionWeight (vtx : List CTransaction) :
    (vtx.map fun tx => (tx.serialize false).length).sum * (witnessScaleFactor - 1) +
      (vtx.map fun tx => (tx.serialize true).length).sum = (vtx.map getTransactionWeight).sum := by
  induction vtx with
  | nil => rfl
  | cons tx vtx ih =>
    simp only [List.map_cons, List.sum_cons, getTransactionWeight, ← ih]
    ring

theorem getBlockWeight_eq (block : CBlock) : getBlockWeight block = (block.vtx.map getTransactionWeight).sum +
      witnessScaleFactor * (80 + getSizeOfCompactSize block.vtx.length +
        block.quantumSignatures.serialize.length) := by
  simp only [getBlockWeight, CBlock.serialize, List.length_append, CBlockHeader.serialize_length,
    serializeVector_length, ← sum_getTransactionWeight, witnessScaleFactor]
  ring

theorem CBlock.serialize_false_le (block : CBlock) :
    (block.serialize false).length ≤ (block.serialize true).length := by
  have hle : (block.vtx.map fun tx => (tx.serialize false).length).sum ≤
      (block.vtx.map fun tx => (tx.serialize true).length).sum :=
    List.sum_le_sum fun tx _ => tx.serialize_false_le
  simp only [serialize, List.length_append, serializeVector_length]
  omega

def verifyBlockQuantumSignatures (oqs : OqsVerify) (blockHash : Uint256) (block : CBlock) : Bool :=
  let data := block.quantumSignatures
  if data.xmssSignature.length ≠ xmssSignatureSize ∨ data.sphincsSignature.length ≠ sphincsSignatureSize ∨
      data.dualPublicKey.length ≠ dualPubkeyBundleSize then false
  else
    match loadSized xmssPubkeySize (data.dualPublicKey.take xmssPubkeySize),
        loadSized sphincsPubkeySize ((data.dualPublicKey.drop xmssPubkeySize).take sphincsPubkeySize),
        loadSized xmssSignatureSize data.xmssSignature,
        loadSized sphincsSignatureSize data.sphincsSignature with
    | some xmssPubkey, some sphincsPubkey, some xmssSignature, some sphincsSignature =>
      if !XmssPublicKey.verify oqs xmssPubkey blockHash xmssSignature then false
      else if !SphincsPublicKey.verify oqs sphincsPubkey blockHash sphincsSignature then false
      else true
    | _, _, _, _ => false

/-- The tail of a block is accepted exactly when it is a valid dual signature
of the block's hash. -/
theorem verifyBlockQuantumSignatures_iff (oqs : OqsVerify) (blockHash : Uint256) (block : CBlock) :
    verifyBlockQuantumSignatures oqs blockHash block = true ↔
      DualSignatureValid oqs block.quantumSignatures.xmssSignature
        block.quantumSignatures.sphincsSignature block.quantumSignatures.dualPublicKey blockHash := by
  rw [← verifyQuantumDualSignature_iff]
  by_cases hs : block.quantumSignatures.xmssSignature.length ≠ xmssSignatureSize ∨
      block.quantumSignatures.sphincsSignature.length ≠ sphincsSignatureSize ∨
      block.quantumSignatures.dualPublicKey.length ≠ dualPubkeyBundleSize
  · simp [verifyBlockQuantumSignatures, verifyQuantumDualSignature, hs]
  · have hd : block.quantumSignatures.dualPublicKey.length = dualPubkeyBundleSize := by
      push Not at hs
      exact hs.2.2
    have htake : (block.quantumSignatures.dualPublicKey.drop xmssPubkeySize).take sphincsPubkeySize =
        block.quantumSignatures.dualPublicKey.drop xmssPubkeySize := by
      apply List.take_of_length_le
      simp [hd, dualPubkeyBundleSize]
    simp only [verifyBlockQuantumSignatures, verifyQuantumDualSignature, htake]
    cases loadSized xmssPubkeySize (block.quantumSignatures.dualPublicKey.take xmssPubkeySize) <;>
      cases loadSized sphincsPubkeySize (block.quantumSignatures.dualPublicKey.drop xmssPubkeySize) <;>
      cases loadSized xmssSignatureSize block.quantumSignatures.xmssSignature <;>
      cases loadSized sphincsSignatureSize block.quantumSignatures.sphincsSignature <;> simp

end Byze
