import Byze.QuantumKeys

/-! The manager of a dual XMSS and SPHINCS+ key: generation from entropy,
signing, and the byte format its keys are saved in. -/

namespace Byze

def hmacSha256 (h : Hashes) (key msg : Bytes) : Uint256 :=
  let rkey := if key.length ≤ 64 then key ++ List.replicate (64 - key.length) 0
    else (h.sha256 key).val ++ List.replicate 32 0
  h.sha256 (rkey.map (· ^^^ 0x5c) ++ (h.sha256 (rkey.map (· ^^^ 0x36) ++ msg)).val)

def hkdfExpand32 (h : Hashes) (ikm salt info : Bytes) : Bytes :=
  (hmacSha256 h (hmacSha256 h salt ikm).val (info ++ [1])).val

def quantumHdSalt : Bytes :=
  [0x62, 0x79, 0x7a, 0x65, 0x5f, 0x71, 0x75, 0x61, 0x6e, 0x74, 0x75, 0x6d, 0x5f, 0x68, 0x64, 0x5f, 0x76, 0x32]

def xmssSeedInfo : Bytes :=
  [0x62, 0x79, 0x7a, 0x65, 0x2f, 0x71, 0x2f, 0x78, 0x6d, 0x73, 0x73, 0x5f, 0x73, 0x65, 0x65, 0x64]

def sphSeedInfo (letter : UInt8) : Bytes :=
  [0x62, 0x79, 0x7a, 0x65, 0x2f, 0x71, 0x2f, 0x73, 0x70, 0x68, 0x5f, 0x73, 0x65, 0x65, 0x64, 0x5f, letter]

inductive QuantumAlgorithm where
  | xmss | sphincsPlus | dual
  deriving DecidableEq

structure QuantumSafeManager (Key : Type) where
  xmssPrivate : Option (XmssPrivateKey Key)
  xmssPublic : Option XmssPublicKey
  sphincsPrivate : Option SphincsPrivateKey
  sphincsPublic : Option SphincsPublicKey
  currentAlgo : QuantumAlgorithm

structure KeygenOutcome where
  xmss : XmssKeygenOutcome
  sphincs : SphincsKeygenOutcome

structure SignOutcome where
  remainingRead : Bool
  xmss : XmssSignOutcome
  sphincs : Bool

/-- The SPHINCS+ key of a generation that fails. It is not begun if there is no XMSS key. -/
def KeygenOutcome.unfinishedSphincs (o : KeygenOutcome) : SphincsPrivateKey :=
  match o.xmss, o.sphincs with
  | .succeeds, .fails left => left
  | _, _ => .empty

def xmssSeed (h : Hashes) (ikm : Bytes) : Bytes := hkdfExpand32 h ikm quantumHdSalt xmssSeedInfo

def sphSeed (h : Hashes) (ikm : Bytes) : Bytes :=
  hkdfExpand32 h ikm quantumHdSalt (sphSeedInfo 0x61) ++ hkdfExpand32 h ikm quantumHdSalt (sphSeedInfo 0x62)

def xmssKeyOfIkm {Key : Type} (h : Hashes) (lib : Liboqs Key) (ikm : Bytes) : Key :=
  lib.stflKeypair (xmssSeed h ikm)

namespace QuantumSafeManager
variable {Key : Type} (h : Hashes) (lib : Liboqs Key) (m : QuantumSafeManager Key)

def empty : QuantumSafeManager Key := ⟨none, none, none, none, .xmss⟩

/-- The private keys are replaced first and the public keys only when both
generations succeed. -/
def generateDualKeysFromEntropyIkm (ikm : Bytes) (o : KeygenOutcome) : Bool × QuantumSafeManager Key :=
  let xmss := XmssPrivateKey.initializeFromEntropy lib (xmssSeed h ikm) o.xmss
  if !xmss.1 then
    (false, { m with xmssPrivate := some xmss.2, sphincsPrivate := some SphincsPrivateKey.empty })
  else
    let sphincs := SphincsPrivateKey.initializeFromEntropy128 lib (sphSeed h ikm) o.sphincs
    if !sphincs.1 then
      (false, { m with xmssPrivate := some xmss.2, sphincsPrivate := some sphincs.2 })
    else
      (true, ⟨some xmss.2, some xmss.2.getPublicKey, some sphincs.2, some sphincs.2.publicKey, .dual⟩)

def sign (message : Uint256) (algo : QuantumAlgorithm) (o : SignOutcome) :
    Bytes × QuantumSafeManager Key × Option (Key × Nat) :=
  match algo with
  | .xmss =>
    match m.xmssPrivate with
    | none => ([], m, none)
    | some sk =>
      if sk.getRemainingSignatures lib o.remainingRead = 0 then ([], m, none)
      else
        let r := sk.sign lib message o.xmss
        (r.1.val, { m with xmssPrivate := some r.2.1 }, r.2.2)
  | .sphincsPlus =>
    match m.sphincsPrivate with
    | none => ([], m, none)
    | some sk => ((sk.sign lib message o.sphincs).val, m, none)
  | .dual => ([], m, none)

def hasDualKeys : Bool :=
  m.xmssPrivate.isSome && m.xmssPublic.isSome && m.sphincsPrivate.isSome && m.sphincsPublic.isSome

def getDualPublicKeyBundle : Bytes :=
  match m.xmssPrivate, m.xmssPublic, m.sphincsPrivate, m.sphincsPublic with
  | some _, some xp, some _, some sp => xp.val ++ sp.val
  | _, _, _, _ => []

def getXmssIndex (o : IndexReadOutcome) : Option Nat := m.xmssPrivate.map (·.getIndex lib o)

def getXmssRemainingSignatures (readOk : Bool) : Option Nat :=
  m.xmssPrivate.map (·.getRemainingSignatures lib readOk)

end QuantumSafeManager

def writeBlob (blob : Bytes) : Bytes :=
  let sz := blob.length % 2 ^ 32
  LittleEndian.encode 4 sz ++ blob.take sz

def readBlob (input : Bytes) : Option (Bytes × Bytes) :=
  if input.length < 4 then none
  else
    let sz := LittleEndian.decode (input.take 4)
    if sz = 0 ∨ sz > 1000000 then none
    else if (input.drop 4).length < sz then none
    else some ((input.drop 4).take sz, (input.drop 4).drop sz)

theorem readBlob_writeBlob_append (blob rest : Bytes) (hne : blob ≠ [])
    (hle : blob.length ≤ 1000000) : readBlob (writeBlob blob ++ rest) = some (blob, rest) := by
  have hpos : 0 < blob.length := List.length_pos_of_ne_nil hne
  have hmod : blob.length % 2 ^ 32 = blob.length := Nat.mod_eq_of_lt (by omega)
  have hw : writeBlob blob ++ rest = LittleEndian.encode 4 blob.length ++ (blob ++ rest) := by
    simp only [writeBlob, hmod, List.take_length, List.append_assoc]
  have htake : (writeBlob blob ++ rest).take 4 = LittleEndian.encode 4 blob.length := by
    rw [hw]
    exact List.take_left' (by simp)
  have hdrop : (writeBlob blob ++ rest).drop 4 = blob ++ rest := by
    rw [hw]
    exact List.drop_left' (by simp)
  have hlen : ¬ (writeBlob blob ++ rest).length < 4 := by
    rw [hw]
    simp
  have hdec : LittleEndian.decode (LittleEndian.encode 4 blob.length) = blob.length :=
    LittleEndian.decode_encode (by omega)
  simp only [readBlob, if_neg hlen, htake, hdrop, hdec]
  rw [if_neg (by omega)]
  simp

def dualKeysHeader : Bytes := [0x4b, 0x53, 0x46, 0x51, 3, 2]

namespace QuantumSafeManager
variable {Key : Type} (m : QuantumSafeManager Key)

def serializeDualKeys : Option Bytes :=
  match m.xmssPrivate, m.xmssPublic, m.sphincsPrivate, m.sphincsPublic with
  | some xmss, some xmssPub, some sphincs, some sphincsPub =>
    some (dualKeysHeader ++ (writeBlob xmss.secretKey ++ (writeBlob xmssPub.val ++
      (writeBlob sphincs.secretKey.val ++ writeBlob sphincsPub.val))))
  | _, _, _, _ => none

def deserializeDualKeys (input : Bytes) : Option (QuantumSafeManager Key) := do
  if input.take 6 ≠ dualKeysHeader then none
  let (xmssPriv, rest) ← readBlob (input.drop 6)
  let (xmssPub, rest) ← readBlob rest
  let (sphPriv, rest) ← readBlob rest
  let (sphPub, _) ← readBlob rest
  let xmss ← (XmssPrivateKey.empty : XmssPrivateKey Key).load xmssPriv
  let xmssPublic ← loadSized xmssPubkeySize xmssPub
  let sphincs ← SphincsPrivateKey.empty.load sphPriv
  let sphincsPublic ← loadSized sphincsPubkeySize sphPub
  some ⟨some (xmss.attachPublicKey xmssPub), some xmssPublic, some (sphincs.attachPublicKey sphPub),
    some sphincsPublic, .dual⟩

/-- Saving and loading keeps every key, with the XMSS secret as it was last
stored. -/
theorem deserialize_serializeDualKeys {xmss : XmssPrivateKey Key} {xmssPub : XmssPublicKey}
    {sphincs : SphincsPrivateKey} {sphincsPub : SphincsPublicKey} {algo : QuantumAlgorithm}
    {out : Bytes} (hne : xmss.secretKey ≠ []) (hle : xmss.secretKey.length ≤ 1000000)
    (ho : serializeDualKeys ⟨some xmss, some xmssPub, some sphincs, some sphincsPub, algo⟩ = some out) :
    (deserializeDualKeys out : Option (QuantumSafeManager Key)) =
      some ⟨some ⟨xmss.secretKey, some xmssPub, none⟩, some xmssPub,
        some ⟨sphincs.secretKey, sphincsPub⟩, some sphincsPub, .dual⟩ := by
  obtain rfl := Option.some.inj ho
  have hxp := xmssPub.property
  have hss := sphincs.secretKey.property
  have hsp := sphincsPub.property
  have hheader : dualKeysHeader.length = 6 := rfl
  have h1 := readBlob_writeBlob_append xmss.secretKey (writeBlob xmssPub.val ++
    (writeBlob sphincs.secretKey.val ++ writeBlob sphincsPub.val)) hne hle
  have h2 := readBlob_writeBlob_append xmssPub.val
    (writeBlob sphincs.secretKey.val ++ writeBlob sphincsPub.val)
    (by rw [← List.length_pos_iff, hxp]; decide) (by rw [hxp]; decide)
  have h3 := readBlob_writeBlob_append sphincs.secretKey.val (writeBlob sphincsPub.val)
    (by rw [← List.length_pos_iff, hss]; decide) (by rw [hss]; decide)
  have h4 := readBlob_writeBlob_append sphincsPub.val []
    (by rw [← List.length_pos_iff, hsp]; decide) (by rw [hsp]; decide)
  rw [List.append_nil] at h4
  have hxmss : (XmssPrivateKey.empty : XmssPrivateKey Key).load xmss.secretKey =
      some ⟨xmss.secretKey, none, none⟩ := if_neg hne
  have hsphincs : SphincsPrivateKey.empty.load sphincs.secretKey.val =
      some ⟨sphincs.secretKey, SphincsPrivateKey.empty.publicKey⟩ := by
    simp [SphincsPrivateKey.load, loadSized, hss]
  have hxmssPub : loadSized xmssPubkeySize xmssPub.val = some xmssPub := dif_pos hxp
  have hsphincsPub : loadSized sphincsPubkeySize sphincsPub.val = some sphincsPub := dif_pos hsp
  simp only [deserializeDualKeys, List.take_left' hheader, List.drop_left' hheader, ne_eq,
    not_true_eq_false, if_false, h1, h2, h3, h4, hxmss, hsphincs, hxmssPub, hsphincsPub,
    XmssPrivateKey.attachPublicKey, SphincsPrivateKey.attachPublicKey, Option.bind_eq_bind,
    Option.bind_some]

end QuantumSafeManager

end Byze
