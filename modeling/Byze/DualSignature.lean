import Byze.DualKeys

/-! Verifying with the public keys of a manager, and dual signatures as one byte
string: two signatures, each after its length. A liboqs call that fails while
signing leaves a signature of zero bytes behind. -/

namespace Byze
open LittleEndian

/-- Zero bytes are no signature, and a signature is one under no other key. -/
structure Liboqs.VerifiesOwnOnly {Key : Type} (lib : Liboqs Key) : Prop where
  stfl_zero : ∀ msg (pk : XmssPublicKey), lib.stflVerify msg zeroXmssSignature.val pk.val = false
  stfl_own : ∀ k i msg (pk : XmssPublicKey), i < xmssLeaves →
    lib.stflVerify msg (lib.stflSign k i msg).val pk.val = true → pk = lib.stflPublicKey k
  sig_zero : ∀ msg (pk : SphincsPublicKey), lib.sigVerify msg zeroSphincsSignature.val pk.val = false
  sig_own : ∀ sk msg (pk : SphincsPublicKey),
    lib.sigVerify msg (lib.sigSign sk msg).val pk.val = true → ∃ seed, lib.sigKeypair seed = (pk, sk)

def hashMessage (sha3 : Bytes → Uint256) (message : Bytes) : Uint256 :=
  (loadSized 32 message).getD (sha3 message)

def readUint32At (data : Bytes) (offset : Nat) : Option Nat :=
  if offset + 4 ≤ data.length then some (decode ((data.drop offset).take 4)) else none

def lengthPrefixed (data : Bytes) : Bytes := encode 4 (data.length % 2 ^ 32) ++ data

namespace QuantumSafeManager

section
variable {Key : Type} (sha3 : Bytes → Uint256) (lib : Liboqs Key) (m : QuantumSafeManager Key)

def verify (message : Uint256) (signature : Bytes) (algo : QuantumAlgorithm) : Bool :=
  match algo with
  | .xmss =>
    match m.xmssPublic, loadSized xmssSignatureSize signature with
    | some pk, some sig => XmssPublicKey.verify lib.toOqsVerify pk message sig
    | _, _ => false
  | .sphincsPlus =>
    match m.sphincsPublic, loadSized sphincsSignatureSize signature with
    | some pk, some sig => SphincsPublicKey.verify lib.toOqsVerify pk message sig
    | _, _ => false
  | .dual => false

def validateDualSignature (message xmssSig sphincsSig : Bytes) : Bool :=
  let hash := hashMessage sha3 message
  match loadSized xmssSignatureSize xmssSig, loadSized sphincsSignatureSize sphincsSig with
  | some xs, some ss =>
    match m.xmssPublic, m.sphincsPublic with
    | some xp, some sp =>
      XmssPublicKey.verify lib.toOqsVerify xp hash xs && SphincsPublicKey.verify lib.toOqsVerify sp hash ss
    | _, _ => false
  | _, _ => false

def createDualSignature (message : Bytes) (o : SignOutcome) :
    Bytes × QuantumSafeManager Key × Option (Key × Nat) :=
  let hash := hashMessage sha3 message
  match m.xmssPrivate, m.sphincsPrivate with
  | some _, some sphincs =>
    let x := m.sign lib hash .xmss o
    if x.1 = [] then ([], x.2)
    else (lengthPrefixed x.1 ++ lengthPrefixed (sphincs.sign lib hash o.sphincs).val, x.2)
  | _, _ => ([], m, none)

/-- The lengths are added in 32 bits, and the pointer is not. `none` stands for
a read outside the byte string. -/
def verifyDualSignature (message dualSignature : Bytes) : Option Bool :=
  if dualSignature.length < 8 then some false
  else do
    let xlen ← readUint32At dualSignature 0
    if (4 + xlen + 4) % 2 ^ 32 > dualSignature.length then some false
    else
      let slen ← readUint32At dualSignature (4 + xlen)
      if (4 + xlen + 4 + slen) % 2 ^ 32 ≠ dualSignature.length then some false
      else
        some (m.validateDualSignature sha3 lib message ((dualSignature.drop 4).take xlen)
          (dualSignature.drop (4 + xlen + 4)))
end

section
variable {Key : Type} (lib : Liboqs Key) (m : QuantumSafeManager Key) (o : SignOutcome)

def LeafRead (sk : XmssPrivateKey Key) : Prop :=
  o.remainingRead = true ∧ ∃ s, lib.stflDeserialize sk.secretKey = some s ∧ s.index < xmssLeaves

/-- Every call succeeds, and the public key is that of the secret signed with. -/
def XmssSigns (sk : XmssPrivateKey Key) : Prop :=
  o.xmss = .succeeds ∧ sk.publicKey.isSome ∧ ∃ s, sk.currentSecret lib = some s ∧ s.index < xmssLeaves ∧
      m.xmssPublic = some (lib.stflPublicKey s.key)

def SphincsSigns (sk : SphincsPrivateKey) : Prop :=
  o.sphincs = true ∧
    ∃ seed, sk.secretKey = (lib.sigKeypair seed).2 ∧ m.sphincsPublic = some (lib.sigKeypair seed).1

def Signs : QuantumAlgorithm → Prop
  | .xmss => ∀ sk, m.xmssPrivate = some sk → LeafRead lib o sk → m.XmssSigns lib o sk
  | .sphincsPlus => ∀ sk, m.sphincsPrivate = some sk → m.SphincsSigns lib o sk
  | .dual => True

def SignsDual : Prop :=
  ∀ xmss sphincs, m.xmssPrivate = some xmss → m.sphincsPrivate = some sphincs →
    LeafRead lib o xmss → m.XmssSigns lib o xmss ∧ m.SphincsSigns lib o sphincs
end

variable {Key : Type} {lib : Liboqs Key} {m : QuantumSafeManager Key} {o : SignOutcome} {sk : XmssPrivateKey Key}

theorem getRemainingSignatures_ne_zero :
    sk.getRemainingSignatures lib o.remainingRead ≠ 0 ↔ LeafRead lib o sk := by
  rw [XmssPrivateKey.getRemainingSignatures, LeafRead]
  cases hs : lib.stflDeserialize sk.secretKey with
  | none => simp
  | some s =>
    cases o.remainingRead <;> simp [XmssSecret.remaining]
    omega

theorem LeafRead.secretKey_ne_nil (h : LeafRead lib o sk) : sk.secretKey ≠ [] := by
  intro hnil
  obtain ⟨-, s, hs, -⟩ := h
  rw [hnil, lib.stflDeserialize_nil] at hs
  cases hs

theorem verify_congr {m' : QuantumSafeManager Key} (hx : m'.xmssPublic = m.xmssPublic)
    (hs : m'.sphincsPublic = m.sphincsPublic) (message : Uint256) (signature : Bytes)
    (algo : QuantumAlgorithm) : m'.verify lib message signature algo = m.verify lib message signature algo := by
  simp only [verify, hx, hs]

theorem sign_publics (lib : Liboqs Key) (m : QuantumSafeManager Key) (message : Uint256)
    (algo : QuantumAlgorithm) (o : SignOutcome) :
    (m.sign lib message algo o).2.1.xmssPublic = m.xmssPublic ∧
      (m.sign lib message algo o).2.1.sphincsPublic = m.sphincsPublic := by
  cases algo with
  | xmss =>
    simp only [sign]
    split
    · exact ⟨rfl, rfl⟩
    · split <;> exact ⟨rfl, rfl⟩
  | sphincsPlus => simp [sign_sphincsPlus_snd]
  | dual => exact ⟨rfl, rfl⟩

theorem sign_xmss_eq_nil (hsk : m.xmssPrivate = some sk)
    (message : Uint256) : (m.sign lib message .xmss o).1 = [] ↔ ¬ LeafRead lib o sk := by
  rw [← getRemainingSignatures_ne_zero, not_not]
  simp only [sign, hsk]
  by_cases hr : sk.getRemainingSignatures lib o.remainingRead = 0
  · simp [hr]
  · simp only [hr, if_false, iff_false]
    intro hnil
    have hlen := (sk.sign lib message o.xmss).1.property
    rw [hnil] at hlen
    simp [xmssSignatureSize] at hlen

/-- The XMSS half: a key that is read as having a leaf gives a signature that is
accepted exactly where every call succeeds and the public key fits. -/
theorem xmss_accepted_iff (hlib : lib.VerifiesOwnOnly) (hread : LeafRead lib o sk) (message : Uint256) :
    (∃ pk, m.xmssPublic = some pk ∧
      XmssPublicKey.verify lib.toOqsVerify pk message (sk.sign lib message o.xmss).1 = true) ↔
      m.XmssSigns lib o sk := by
  have hnonzero : ∀ pk : XmssPublicKey,
      XmssPublicKey.verify lib.toOqsVerify pk message zeroXmssSignature ≠ true := by
    intro pk
    rw [XmssPublicKey.verify, hlib.stfl_zero]
    exact Bool.false_ne_true
  have hne := hread.secretKey_ne_nil
  constructor
  · rintro ⟨pk, hpk, hv⟩
    rcases sk.sign_cases lib message o.xmss with he | ⟨s, hc, ⟨s', blob, -, -, he⟩ | ⟨h, ho, he⟩⟩
    all_goals rw [he] at hv
    · exact absurd hv (hnonzero pk)
    · exact absurd hv (hnonzero pk)
    · refine ⟨ho, ?_, s, hc, h, ?_⟩
      · cases hp : sk.publicKey with
        | some _ => rfl
        | none =>
          have hsign : sk.sign lib message o.xmss = (zeroXmssSignature, sk, none) := by
            simp [XmssPrivateKey.sign, hp]
          cases (Prod.mk.inj (Prod.mk.inj (he.symm.trans hsign)).2).2
      · rw [hpk, hlib.stfl_own _ _ _ _ h hv]
  · rintro ⟨ho, hp, s, hc, h, hpk⟩
    refine ⟨lib.stflPublicKey s.key, hpk, ?_⟩
    obtain ⟨pk, hp⟩ := Option.isSome_iff_exists.mp hp
    have hsign : (sk.sign lib message o.xmss).1 = lib.stflSign s.key s.index message.val := by
      simp [XmssPrivateKey.sign, hne, hp, ho, hc, h]
    rw [hsign]
    exact lib.stflVerify_sign s.key s.index message.val h

theorem sphincs_accepted_iff (hlib : lib.VerifiesOwnOnly) (sk : SphincsPrivateKey) (message : Uint256) :
    (∃ pk, m.sphincsPublic = some pk ∧
      SphincsPublicKey.verify lib.toOqsVerify pk message (sk.sign lib message o.sphincs) = true) ↔
      m.SphincsSigns lib o sk := by
  cases ho : o.sphincs with
  | false =>
    constructor
    · rintro ⟨pk, -, hv⟩
      have hz := hlib.sig_zero message.val pk
      exact absurd (hz.symm.trans hv) Bool.false_ne_true
    · rintro ⟨hs, -⟩
      exact absurd (ho.symm.trans hs) Bool.false_ne_true
  | true =>
    constructor
    · rintro ⟨pk, hpk, hv⟩
      obtain ⟨seed, hseed⟩ := hlib.sig_own sk.secretKey message.val pk hv
      exact ⟨ho, seed, by rw [hseed], by rw [hpk, hseed]⟩
    · rintro ⟨-, seed, hsk, hpk⟩
      refine ⟨_, hpk, ?_⟩
      change lib.sigVerify message.val (lib.sigSign sk.secretKey message.val).val _ = true
      rw [hsk]
      exact lib.sigVerify_sign seed message.val

theorem verify_xmss_iff (message : Uint256) (sig : XmssSignature) :
    m.verify lib message sig.val .xmss = true ↔
      ∃ pk, m.xmssPublic = some pk ∧ XmssPublicKey.verify lib.toOqsVerify pk message sig = true := by
  have hload : loadSized xmssSignatureSize sig.val = some sig := dif_pos sig.property
  cases hp : m.xmssPublic <;> simp [verify, hp, hload]

theorem verify_sphincsPlus_iff (message : Uint256) (sig : SphincsSignature) :
    m.verify lib message sig.val .sphincsPlus = true ↔ ∃ pk, m.sphincsPublic = some pk ∧
        SphincsPublicKey.verify lib.toOqsVerify pk message sig = true := by
  have hload : loadSized sphincsSignatureSize sig.val = some sig := dif_pos sig.property
  cases hp : m.sphincsPublic <;> simp [verify, hp, hload]

/-- What `sign` gives back is empty or verifies, in every state of the keys and
however the calls end, exactly where the calls made succeed on matching keys. -/
theorem sign_refuses_or_verifies_iff (hlib : lib.VerifiesOwnOnly) (m : QuantumSafeManager Key)
    (message : Uint256) (algo : QuantumAlgorithm) (o : SignOutcome) :
    ((m.sign lib message algo o).1 = [] ∨
      (m.sign lib message algo o).2.1.verify lib message (m.sign lib message algo o).1 algo = true) ↔
      m.Signs lib o algo := by
  obtain ⟨hx, hs⟩ := sign_publics lib m message algo o
  rw [verify_congr hx hs]
  cases algo with
  | xmss =>
    cases hsk : m.xmssPrivate with
    | none => simp [sign, Signs, hsk]
    | some sk =>
      rw [sign_xmss_eq_nil hsk]
      by_cases hread : LeafRead lib o sk
      · have hsign : (m.sign lib message .xmss o).1 = (sk.sign lib message o.xmss).1.val := by
          simp [sign, hsk, getRemainingSignatures_ne_zero.mpr hread]
        rw [hsign, verify_xmss_iff, xmss_accepted_iff hlib hread]
        simp [Signs, hsk, hread]
      · simp [Signs, hsk, hread]
  | sphincsPlus =>
    cases hsk : m.sphincsPrivate with
    | none => simp [sign, Signs, hsk]
    | some sk =>
      have hne : (sk.sign lib message o.sphincs).val ≠ [] := by
        rw [← List.length_pos_iff, (sk.sign lib message o.sphincs).property]
        decide
      rw [sign_sphincsPlus_fst lib hsk, verify_sphincsPlus_iff, sphincs_accepted_iff hlib]
      simp [Signs, hsk, hne]
  | dual => simp [sign, Signs]

end QuantumSafeManager

def strictLiboqs : Liboqs UInt8 where
  __ := sampleLiboqs
  stflVerify _ sig pk := decide (sig.take 2 = 1 :: pk.take 1 ∧ pk.drop 1 = List.replicate 67 0)
  sigVerify _ sig pk := decide (sig.take 2 = [1, 1] ∧ pk = List.replicate sphincsPubkeySize 0)
  sigSign sk _ := ⟨1 :: (if sk.val = List.replicate 64 0 then 1 else 0) :: List.replicate 7854 0, by
    rw [List.length_cons, List.length_cons, List.length_replicate]; rfl⟩
  stflVerify_sign _ _ _ _ := decide_eq_true ⟨rfl, rfl⟩
  sigVerify_sign _ _ := decide_eq_true ⟨rfl, rfl⟩

theorem strictLiboqs_verifiesOwnOnly : strictLiboqs.VerifiesOwnOnly where
  stfl_zero msg pk := by
    change decide (zeroXmssSignature.val.take 2 = 1 :: pk.val.take 1 ∧
      pk.val.drop 1 = List.replicate 67 0) = false
    refine decide_eq_false fun h => ?_
    have hhead : some (0 : UInt8) = some 1 := congrArg List.head? h.1
    exact absurd hhead (by decide)
  stfl_own k i msg pk _ h := by
    obtain ⟨hhead, htail⟩ := of_decide_eq_true h
    have hk : pk.val.take 1 = [k] := (List.cons.inj hhead).2.symm
    apply Subtype.ext
    change pk.val = [k] ++ List.replicate 67 0
    rw [← hk, ← htail, List.take_append_drop]
  sig_zero msg pk := by
    change decide (zeroSphincsSignature.val.take 2 = [1, 1] ∧
      pk.val = List.replicate sphincsPubkeySize 0) = false
    refine decide_eq_false fun h => ?_
    have hhead : some (0 : UInt8) = some 1 := congrArg List.head? h.1
    exact absurd hhead (by decide)
  sig_own sk msg pk h := by
    obtain ⟨hhead, hpk⟩ := of_decide_eq_true h
    refine ⟨[], Prod.ext (Subtype.ext hpk.symm) ?_⟩
    by_contra hsk
    have hsk' : sk.val ≠ List.replicate 64 0 := fun he => hsk (Subtype.ext he.symm)
    have hzero : [1, if sk.val = List.replicate 64 0 then (1 : UInt8) else 0] = [1, 1] := hhead
    rw [if_neg hsk'] at hzero
    exact absurd hzero (by decide)

def sampleManager : QuantumSafeManager UInt8 :=
  (QuantumSafeManager.empty.generateDualKeysFromEntropyIkm byteSumHashes strictLiboqs [] ⟨.succeeds, .succeeds⟩).2

def sampleSha3 : Bytes → Uint256 := byteSumHashes.sha256

namespace QuantumSafeManager

theorem sign_refuses_or_verifies_sample :
    (sampleManager.sign strictLiboqs Uint256.zero .xmss ⟨true, .succeeds, true⟩).1 = [] ∨
      (sampleManager.sign strictLiboqs Uint256.zero .xmss ⟨true, .succeeds, true⟩).2.1.verify strictLiboqs
        Uint256.zero (sampleManager.sign strictLiboqs Uint256.zero .xmss ⟨true, .succeeds, true⟩).1
          .xmss = true := by
  refine (sign_refuses_or_verifies_iff strictLiboqs_verifiesOwnOnly sampleManager Uint256.zero .xmss
    ⟨true, .succeeds, true⟩).mpr ?_
  intro sk hsk _
  obtain rfl := Option.some.inj hsk
  exact ⟨rfl, rfl, _, rfl, by decide, rfl⟩

/-- A call that fails after the leaves were counted gives a signature of zero
bytes, which is neither empty nor accepted. -/
theorem failed_sign_gives_zero_bytes :
    (sampleManager.sign strictLiboqs Uint256.zero .xmss ⟨true, .schemeFails, true⟩).1 =
        zeroXmssSignature.val ∧
      sampleManager.verify strictLiboqs Uint256.zero zeroXmssSignature.val .xmss = false ∧
      (sampleManager.sign strictLiboqs Uint256.zero .sphincsPlus ⟨true, .succeeds, false⟩).1 =
        zeroSphincsSignature.val ∧
      sampleManager.verify strictLiboqs Uint256.zero zeroSphincsSignature.val .sphincsPlus = false :=
  ⟨rfl, by decide +kernel, rfl, by decide +kernel⟩

end QuantumSafeManager

section
variable {data xmssSig sphincsSig : Bytes}

/-- Two byte strings one after the other, each behind its length. -/
def DualFormat (data xmssSig sphincsSig : Bytes) : Prop :=
  data = lengthPrefixed xmssSig ++ lengthPrefixed sphincsSig ∧
    xmssSig.length < 2 ^ 32 ∧ sphincsSig.length < 2 ^ 32

def firstLength (data : Bytes) : Nat := decode (data.take 4)

def secondLength (data : Bytes) : Nat := decode ((data.drop (4 + firstLength data)).take 4)

/-- The first length does not wrap round when eight is added to it, or it stays
inside the byte string all the same. -/
def LengthInside (data : Bytes) : Prop :=
  data.length < 8 ∨ 8 + firstLength data ≤ data.length ∨ 8 + firstLength data < 2 ^ 32

theorem decode_take_four_lt (data : Bytes) : decode (data.take 4) < 2 ^ 32 := by
  have hlt := decode_lt (data.take 4)
  have hle : (256 : Nat) ^ (data.take 4).length ≤ 256 ^ 4 :=
    Nat.pow_le_pow_right (by decide) (List.length_take_le 4 data)
  omega

theorem firstLength_lt (data : Bytes) : firstLength data < 2 ^ 32 := decode_take_four_lt data

theorem secondLength_lt (data : Bytes) : secondLength data < 2 ^ 32 := decode_take_four_lt _

theorem decode_lengthPrefixed (hlen : data.length < 2 ^ 32) (rest : Bytes) :
    decode ((lengthPrefixed data ++ rest).take 4) = data.length := by
  have htake : (lengthPrefixed data ++ rest).take 4 = encode 4 data.length := by
    rw [lengthPrefixed, Nat.mod_eq_of_lt hlen]
    exact List.take_left' (encode_length _ _)
  rw [htake]
  exact decode_encode (by omega)

theorem lengthPrefixed_eq {body : Bytes} (hfour : 4 ≤ data.length) (hbody : body = data.drop 4)
    (hlen : decode (data.take 4) = body.length) : lengthPrefixed body = data := by
  have htake : (data.take 4).length = 4 := List.length_take_of_le hfour
  have hlt := decode_take_four_lt data
  rw [lengthPrefixed, ← hlen, Nat.mod_eq_of_lt hlt]
  nth_rewrite 1 [← htake]
  rw [encode_decode, hbody, List.take_append_drop]

/-- A byte string is of the format in at most one way, which its lengths give. -/
theorem dualFormat_iff : DualFormat data xmssSig sphincsSig ↔
    8 + firstLength data ≤ data.length ∧ xmssSig = (data.drop 4).take (firstLength data) ∧
      sphincsSig = data.drop (4 + firstLength data + 4) ∧ secondLength data = sphincsSig.length := by
  constructor
  · rintro ⟨rfl, hx, hs⟩
    have hfirst : firstLength (lengthPrefixed xmssSig ++ lengthPrefixed sphincsSig) = xmssSig.length :=
      decode_lengthPrefixed hx _
    have hprefix : (lengthPrefixed xmssSig).length = 4 + xmssSig.length := by
      simp [lengthPrefixed]
    have hdrop : (lengthPrefixed xmssSig ++ lengthPrefixed sphincsSig).drop (4 + xmssSig.length) =
        lengthPrefixed sphincsSig := List.drop_left' hprefix
    have hsecond := decode_lengthPrefixed hs []
    rw [List.append_nil] at hsecond
    refine ⟨?_, ?_, ?_, ?_⟩
    · rw [hfirst]
      simp [lengthPrefixed]
      omega
    · rw [hfirst]
      exact (List.take_left' rfl).symm
    · rw [hfirst, ← List.drop_drop, hdrop]
      exact (List.drop_left' (encode_length _ _)).symm
    · rw [secondLength, hfirst, hdrop, hsecond]
  · rintro ⟨hle, rfl, hs, hsecond⟩
    have hlt := firstLength_lt data
    have hlen : ((data.drop 4).take (firstLength data)).length = firstLength data := by
      rw [List.length_take, List.length_drop]
      omega
    have htail : lengthPrefixed sphincsSig = data.drop (4 + firstLength data) := by
      refine lengthPrefixed_eq ?_ ?_ hsecond
      · rw [List.length_drop]
        omega
      · simp [hs]
    have hhead : lengthPrefixed ((data.drop 4).take (firstLength data)) =
        data.take (4 + firstLength data) := by
      refine lengthPrefixed_eq ?_ ?_ ?_
      · rw [List.length_take]
        omega
      · rw [List.drop_take, Nat.add_sub_cancel_left]
      · rw [List.take_take, hlen, Nat.min_eq_left (Nat.le_add_right 4 _)]
        rfl
    refine ⟨?_, ?_, ?_⟩
    · simp [hhead, htail]
    · rw [hlen]
      exact hlt
    · rw [← hsecond]
      exact secondLength_lt data

theorem DualFormat.length_eq (h : DualFormat data xmssSig sphincsSig) :
    data.length = 8 + xmssSig.length + sphincsSig.length := by
  rw [h.1]
  simp [lengthPrefixed]
  omega
end

namespace QuantumSafeManager
variable {Key : Type} {sha3 : Bytes → Uint256} {lib : Liboqs Key} {m : QuantumSafeManager Key}
  {o : SignOutcome} {message data : Bytes}

theorem validateDualSignature_iff {xmssSig sphincsSig : Bytes} :
    m.validateDualSignature sha3 lib message xmssSig sphincsSig = true ↔
      m.verify lib (hashMessage sha3 message) xmssSig .xmss = true ∧
        m.verify lib (hashMessage sha3 message) sphincsSig .sphincsPlus = true := by
  simp only [validateDualSignature, verify]
  cases loadSized xmssSignatureSize xmssSig <;> cases loadSized sphincsSignatureSize sphincsSig <;>
    cases m.xmssPublic <;> cases m.sphincsPublic <;> simp

theorem length_of_verify {hash : Uint256} {xmssSig : Bytes}
    (h : m.verify lib hash xmssSig .xmss = true) : xmssSig.length = xmssSignatureSize := by
  by_contra hlen
  have hload : loadSized xmssSignatureSize xmssSig = none := dif_neg hlen
  cases hp : m.xmssPublic <;> simp [verify, hload] at h

theorem length_of_verify_sphincsPlus {hash : Uint256} {sphincsSig : Bytes}
    (h : m.verify lib hash sphincsSig .sphincsPlus = true) :
    sphincsSig.length = sphincsSignatureSize := by
  by_contra hlen
  have hload : loadSized sphincsSignatureSize sphincsSig = none := dif_neg hlen
  cases hp : m.sphincsPublic <;> simp [verify, hload] at h

def ReadsDual (sha3 : Bytes → Uint256) (lib : Liboqs Key) (m : QuantumSafeManager Key)
    (message data : Bytes) : Prop :=
  ∃ accepted, m.verifyDualSignature sha3 lib message data = some accepted ∧
    (accepted = true ↔ ∃ xmssSig sphincsSig, DualFormat data xmssSig sphincsSig ∧
      m.validateDualSignature sha3 lib message xmssSig sphincsSig = true)

theorem not_format_of_short (hshort : data.length < 8 + firstLength data) :
    (false = true ↔ ∃ xmssSig sphincsSig, DualFormat data xmssSig sphincsSig ∧
      m.validateDualSignature sha3 lib message xmssSig sphincsSig = true) := by
  refine ⟨by simp, ?_⟩
  rintro ⟨xmssSig, sphincsSig, hformat, -⟩
  have hle := (dualFormat_iff.mp hformat).1
  omega

theorem readsDual_of_le (hle : 8 + firstLength data ≤ data.length) : m.ReadsDual sha3 lib message data := by
  have hfirst : readUint32At data 0 = some (firstLength data) := if_pos (by omega)
  have hsecond : readUint32At data (4 + firstLength data) = some (secondLength data) :=
    if_pos (by omega)
  have hlt := secondLength_lt data
  rw [ReadsDual]
  simp only [verifyDualSignature, hfirst, hsecond, Option.bind_eq_bind, Option.bind_some]
  rw [if_neg (by omega), if_neg (by omega)]
  have hdroplen : (data.drop (4 + firstLength data + 4)).length =
      data.length - (4 + firstLength data + 4) := List.length_drop
  by_cases hsum : (4 + firstLength data + 4 + secondLength data) % 2 ^ 32 ≠ data.length
  · refine ⟨false, if_pos hsum, by simp, ?_⟩
    rintro ⟨xmssSig, sphincsSig, hformat, hvalid⟩
    have hlen := hformat.length_eq
    obtain ⟨hx, hs⟩ := validateDualSignature_iff.mp hvalid
    have hxlen := length_of_verify hx
    have hslen := length_of_verify_sphincsPlus hs
    obtain ⟨-, -, rfl, hsecond⟩ := dualFormat_iff.mp hformat
    simp only [xmssSignatureSize, sphincsSignatureSize] at hxlen hslen
    omega
  · refine ⟨_, if_neg hsum, ?_⟩
    have hslen : secondLength data = (data.drop (4 + firstLength data + 4)).length := by omega
    constructor
    · intro hvalid
      exact ⟨_, _, dualFormat_iff.mpr ⟨hle, rfl, rfl, hslen⟩, hvalid⟩
    · rintro ⟨xmssSig, sphincsSig, hformat, hvalid⟩
      obtain ⟨-, rfl, rfl, -⟩ := dualFormat_iff.mp hformat
      exact hvalid

theorem readsDual_iff : m.ReadsDual sha3 lib message data ↔ LengthInside data := by
  by_cases hle : 8 + firstLength data ≤ data.length
  · exact iff_of_true (readsDual_of_le hle) (Or.inr (Or.inl hle))
  have hnot : (false = true ↔ ∃ xmssSig sphincsSig, DualFormat data xmssSig sphincsSig ∧
      m.validateDualSignature sha3 lib message xmssSig sphincsSig = true) :=
    not_format_of_short (by omega)
  by_cases hshort : data.length < 8
  · exact iff_of_true ⟨false, if_pos hshort, hnot⟩ (Or.inl hshort)
  have hfirst : readUint32At data 0 = some (firstLength data) := if_pos (by omega)
  have hlt := firstLength_lt data
  by_cases hwrap : 8 + firstLength data < 2 ^ 32
  · refine iff_of_true ⟨false, ?_, hnot⟩ (Or.inr (Or.inr hwrap))
    simp only [verifyDualSignature, hfirst, Option.bind_eq_bind, Option.bind_some]
    rw [if_neg hshort, if_pos (by omega)]
  · -- The sum wraps round to less than eight, and the second length is read far outside.
    have hsecond : readUint32At data (4 + firstLength data) = none := if_neg (by omega)
    refine iff_of_false ?_ ?_
    · rintro ⟨accepted, hv, -⟩
      simp only [verifyDualSignature, hfirst, hsecond, Option.bind_eq_bind, Option.bind_some] at hv
      rw [if_neg hshort, if_neg (by omega)] at hv
      cases hv
    · rintro (h | h | h) <;> omega

theorem createDualSignature_snd_publics (sha3 : Bytes → Uint256) (lib : Liboqs Key)
    (m : QuantumSafeManager Key) (message : Bytes) (o : SignOutcome) :
    (m.createDualSignature sha3 lib message o).2.1.xmssPublic = m.xmssPublic ∧
      (m.createDualSignature sha3 lib message o).2.1.sphincsPublic = m.sphincsPublic := by
  have hsign := sign_publics lib m (hashMessage sha3 message) .xmss o
  simp only [createDualSignature]
  split
  · split <;> exact hsign
  · exact ⟨rfl, rfl⟩

theorem verifyDualSignature_lengthPrefixed (xs : XmssSignature) (ss : SphincsSignature) :
    m.verifyDualSignature sha3 lib message (lengthPrefixed xs.val ++ lengthPrefixed ss.val) = some true ↔
      m.verify lib (hashMessage sha3 message) xs.val .xmss = true ∧
        m.verify lib (hashMessage sha3 message) ss.val .sphincsPlus = true := by
  have hformat : DualFormat (lengthPrefixed xs.val ++ lengthPrefixed ss.val) xs.val ss.val := by
    refine ⟨rfl, ?_, ?_⟩
    · rw [xs.property]
      decide
    · rw [ss.property]
      decide
  have hinside := dualFormat_iff.mp hformat
  obtain ⟨accepted, hv, hiff⟩ : m.ReadsDual sha3 lib message _ := readsDual_of_le hinside.1
  rw [hv, Option.some.injEq, hiff, ← validateDualSignature_iff]
  constructor
  · rintro ⟨xmssSig, sphincsSig, hformat', hvalid⟩
    obtain ⟨-, rfl, rfl, -⟩ := dualFormat_iff.mp hformat'
    rwa [← hinside.2.1, ← hinside.2.2.1] at hvalid
  · intro hvalid
    exact ⟨_, _, hformat, hvalid⟩

theorem createDualSignature_accepted_iff (hlib : lib.VerifiesOwnOnly) (m : QuantumSafeManager Key)
    (message : Bytes) (o : SignOutcome) :
    ((m.createDualSignature sha3 lib message o).1 ≠ [] →
      (m.createDualSignature sha3 lib message o).2.1.verifyDualSignature sha3 lib message
        (m.createDualSignature sha3 lib message o).1 = some true) ↔ m.SignsDual lib o := by
  obtain ⟨hxp, hsp⟩ := createDualSignature_snd_publics sha3 lib m message o
  cases hx : m.xmssPrivate with
  | none => simp [createDualSignature, SignsDual, hx]
  | some xmss =>
    cases hs : m.sphincsPrivate with
    | none => simp [createDualSignature, SignsDual, hx, hs]
    | some sphincs =>
      by_cases hread : LeafRead lib o xmss
      · have hsign : (m.sign lib (hashMessage sha3 message) .xmss o).1 =
            (xmss.sign lib (hashMessage sha3 message) o.xmss).1.val := by
          simp [sign, hx, getRemainingSignatures_ne_zero.mpr hread]
        have hne := mt (sign_xmss_eq_nil hx (hashMessage sha3 message)).mp (not_not.mpr hread)
        have hcreate : (m.createDualSignature sha3 lib message o).1 =
            lengthPrefixed (xmss.sign lib (hashMessage sha3 message) o.xmss).1.val ++
              lengthPrefixed (sphincs.sign lib (hashMessage sha3 message) o.sphincs).val := by
          simp only [createDualSignature, hx, hs]
          rw [if_neg hne, hsign]
        rw [hcreate, verifyDualSignature_lengthPrefixed, verify_congr hxp hsp, verify_congr hxp hsp,
          verify_xmss_iff, verify_sphincsPlus_iff, xmss_accepted_iff hlib hread,
          sphincs_accepted_iff hlib]
        simp [SignsDual, hx, hs, hread, lengthPrefixed, encode]
      · have hnil := (sign_xmss_eq_nil hx (hashMessage sha3 message)).mpr hread
        simp [createDualSignature, SignsDual, hx, hs, hnil, hread]

/-- A dual signature is read inside its bounds and accepted for what it is
exactly where its first length does not wrap round, and what is created is
accepted exactly where the calls that sign succeed on matching keys. -/
theorem verify_dual_signature_iff (sha3 : Bytes → Uint256) (hlib : lib.VerifiesOwnOnly)
    (m : QuantumSafeManager Key) (message data : Bytes) (o : SignOutcome) :
    (m.ReadsDual sha3 lib message data ↔ LengthInside data) ∧
      (((m.createDualSignature sha3 lib message o).1 ≠ [] →
        (m.createDualSignature sha3 lib message o).2.1.verifyDualSignature sha3 lib message
          (m.createDualSignature sha3 lib message o).1 = some true) ↔ m.SignsDual lib o) :=
  ⟨readsDual_iff, createDualSignature_accepted_iff hlib m message o⟩

theorem verify_dual_signature_sample :
    (sampleManager.ReadsDual sampleSha3 strictLiboqs [] (List.replicate 8 0) ↔
        LengthInside (List.replicate 8 0)) ∧
      (sampleManager.createDualSignature sampleSha3 strictLiboqs [] ⟨true, .succeeds, true⟩).2.1.verifyDualSignature
        sampleSha3 strictLiboqs []
          (sampleManager.createDualSignature sampleSha3 strictLiboqs [] ⟨true, .succeeds, true⟩).1 =
        some true := by
  obtain ⟨hreads, hcreate⟩ := verify_dual_signature_iff sampleSha3 strictLiboqs_verifiesOwnOnly
    sampleManager [] (List.replicate 8 0) ⟨true, .succeeds, true⟩
  refine ⟨hreads, hcreate.mpr ?_ ?_⟩
  · intro xmss sphincs hx hs _
    obtain rfl := Option.some.inj hx
    obtain rfl := Option.some.inj hs
    exact ⟨⟨rfl, rfl, _, rfl, by decide, rfl⟩, rfl, [], rfl, rfl⟩
  · exact List.cons_ne_nil _ _

/-- A first length of `0xfffffff8` makes the sum zero and the next read go far
outside the eight bytes, and a failed call puts zero bytes into what is created. -/
theorem verify_dual_signature_wraps :
    sampleManager.verifyDualSignature sampleSha3 strictLiboqs [] [0xf8, 0xff, 0xff, 0xff, 0, 0, 0, 0] = none ∧
      (sampleManager.createDualSignature sampleSha3 strictLiboqs [] ⟨true, .schemeFails, true⟩).1 ≠ [] ∧
      sampleManager.verifyDualSignature sampleSha3 strictLiboqs []
        (sampleManager.createDualSignature sampleSha3 strictLiboqs [] ⟨true, .schemeFails, true⟩).1 ≠
          some true := by
  decide +kernel

end QuantumSafeManager

end Byze
