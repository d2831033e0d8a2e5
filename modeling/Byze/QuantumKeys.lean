import Byze.Block
import Byze.Lib.LeafLedger

/-! The XMSS and SPHINCS+ private keys over liboqs. Every liboqs call can fail,
and the outcome of each call is an argument. -/

namespace Byze

def xmssTreeHeight : Nat := 10
def xmssLeaves : Nat := 2 ^ xmssTreeHeight
def sphincsSecretKeySize : Nat := 64

/-- A secret key object of the stateful signature API: an XMSS key and the
number of leaves it has used. -/
structure XmssSecret (Key : Type) where
  key : Key
  index : Nat
  index_le : index ≤ xmssLeaves

abbrev SphincsSecretKey := { b : Bytes // b.length = sphincsSecretKeySize }

/-- The documented behaviour of liboqs where its calls succeed. `Key` is an
XMSS secret key without its leaf counter. -/
structure Liboqs (Key : Type) extends OqsVerify where
  stflKeypair : Bytes → Key
  stflPublicKey : Key → XmssPublicKey
  stflSign : Key → Nat → Bytes → XmssSignature
  stflSerialize : XmssSecret Key → Bytes
  stflDeserialize : Bytes → Option (XmssSecret Key)
  sigKeypair : Bytes → SphincsPublicKey × SphincsSecretKey
  sigSign : SphincsSecretKey → Bytes → SphincsSignature
  stflSerialize_ne_nil : ∀ s, stflSerialize s ≠ []
  stflSerialize_length_le : ∀ s, (stflSerialize s).length ≤ 1000000
  stflDeserialize_nil : stflDeserialize [] = none
  stflDeserialize_serialize : ∀ s, stflDeserialize (stflSerialize s) = some s
  stflVerify_sign : ∀ k i msg, i < xmssLeaves →
    stflVerify msg (stflSign k i msg).val (stflPublicKey k).val = true
  sigVerify_sign : ∀ seed msg,
    sigVerify msg (sigSign (sigKeypair seed).2 msg).val (sigKeypair seed).1.val = true

/-- How key generation ends: with a key, in a failed `OQS_SIG_STFL_keypair`, or
with a key that could not be serialized. -/
inductive XmssKeygenOutcome where
  | succeeds | keypairFails | serializeFails
  deriving DecidableEq

/-- How a signing call ends. A failed `OQS_SIG_STFL_sign` may have advanced the
key and may have run the store callback. -/
inductive XmssSignOutcome where
  | succeeds | loadFails | schemeFails
  | signFails (advanced stored : Bool)
  deriving DecidableEq

inductive IndexReadOutcome where
  | succeeds | fails | remainingFails
  deriving DecidableEq

def zeroBytes (n : Nat) : { b : Bytes // b.length = n } := ⟨List.replicate n 0, List.length_replicate⟩

def zeroXmssSignature : XmssSignature := ⟨List.replicate xmssSignatureSize 0, List.length_replicate⟩
def zeroSphincsSignature : SphincsSignature :=
  ⟨List.replicate sphincsSignatureSize 0, List.length_replicate⟩
def zeroXmssPublicKey : XmssPublicKey := ⟨List.replicate xmssPubkeySize 0, List.length_replicate⟩

def XmssSecret.remaining {Key : Type} (s : XmssSecret Key) : Nat := xmssLeaves - s.index

def XmssSecret.advance {Key : Type} (s : XmssSecret Key) (h : s.index < xmssLeaves) :
    XmssSecret Key := ⟨s.key, s.index + 1, h⟩

/-- `publicKey` is set only to a byte string of the right size. -/
structure XmssPrivateKey (Key : Type) where
  secretKey : Bytes
  publicKey : Option XmssPublicKey
  stflSecret : Option (XmssSecret Key)

structure SphincsPrivateKey where
  secretKey : SphincsSecretKey
  publicKey : SphincsPublicKey

/-- A failed `OQS_SIG_keypair` leaves in the buffers of the key what it has written. -/
inductive SphincsKeygenOutcome where
  | succeeds
  | fails (left : SphincsPrivateKey)

namespace XmssPrivateKey
variable {Key : Type} (lib : Liboqs Key) (sk : XmssPrivateKey Key)

def empty : XmssPrivateKey Key := ⟨[], none, none⟩

def initializeFromEntropy (seed : Bytes) (o : XmssKeygenOutcome) : Bool × XmssPrivateKey Key :=
  let key := lib.stflKeypair seed
  let s : XmssSecret Key := ⟨key, 0, Nat.zero_le _⟩
  match o with
  | .keypairFails => (false, empty)
  | .serializeFails => (false, ⟨[], some (lib.stflPublicKey key), some s⟩)
  | .succeeds =>
    (!(lib.stflSerialize s).isEmpty, ⟨lib.stflSerialize s, some (lib.stflPublicKey key), some s⟩)

def load (data : Bytes) : Option (XmssPrivateKey Key) :=
  if data = [] then none else some { sk with secretKey := data, stflSecret := none }

def attachPublicKey (pubkey : Bytes) : XmssPrivateKey Key :=
  match loadSized xmssPubkeySize pubkey with
  | some pk => { sk with publicKey := some pk }
  | none => sk

def getPublicKey : XmssPublicKey := sk.publicKey.getD zeroXmssPublicKey

def currentSecret : Option (XmssSecret Key) :=
  match sk.stflSecret with
  | some s => some s
  | none => lib.stflDeserialize sk.secretKey

/-- The signature, the key afterwards, and the leaf that was signed with. -/
def sign (message : Uint256) (o : XmssSignOutcome) :
    XmssSignature × XmssPrivateKey Key × Option (Key × Nat) :=
  if sk.secretKey = [] ∨ sk.publicKey.isNone ∨ (sk.stflSecret.isNone ∧ o = .loadFails) then
    (zeroXmssSignature, sk, none)
  else
    match sk.currentSecret lib with
    | none => (zeroXmssSignature, sk, none)
    | some s =>
      if h : s.index < xmssLeaves then
        match o with
        | .succeeds =>
          (lib.stflSign s.key s.index message.val,
            { sk with stflSecret := some (s.advance h),
                      secretKey := lib.stflSerialize (s.advance h) },
            some (s.key, s.index))
        | .signFails advanced stored =>
          let s' := if advanced then s.advance h else s
          (zeroXmssSignature,
            { sk with stflSecret := some s',
                      secretKey := if stored then lib.stflSerialize s' else sk.secretKey }, none)
        | _ => (zeroXmssSignature, { sk with stflSecret := some s }, none)
      else (zeroXmssSignature, { sk with stflSecret := some s }, none)

def getRemainingSignatures (readOk : Bool) : Nat :=
  match lib.stflDeserialize sk.secretKey with
  | some s => if readOk then s.remaining else 0
  | none => 0

def getIndex (o : IndexReadOutcome) : Nat :=
  match lib.stflDeserialize sk.secretKey with
  | none => 0
  | some s =>
    match o with
    | .succeeds => xmssLeaves - s.remaining
    | .fails => 0
    | .remainingFails => xmssLeaves

theorem sign_cases (message : Uint256) (o : XmssSignOutcome) :
    sk.sign lib message o = (zeroXmssSignature, sk, none) ∨
    ∃ s, sk.currentSecret lib = some s ∧
      ((∃ s' blob, (s' = s ∨ ∃ h, s' = s.advance h) ∧
          (blob = sk.secretKey ∨ blob = lib.stflSerialize s') ∧
          sk.sign lib message o =
            (zeroXmssSignature, { sk with stflSecret := some s', secretKey := blob }, none)) ∨
        ∃ h, o = .succeeds ∧ sk.sign lib message o =
          (lib.stflSign s.key s.index message.val,
            { sk with stflSecret := some (s.advance h),
                      secretKey := lib.stflSerialize (s.advance h) },
            some (s.key, s.index))) := by
  by_cases hg : sk.secretKey = [] ∨ sk.publicKey.isNone ∨ (sk.stflSecret.isNone ∧ o = .loadFails)
  · exact Or.inl (by simp only [sign, if_pos hg])
  simp only [sign, if_neg hg]
  cases hc : sk.currentSecret lib with
  | none => exact Or.inl rfl
  | some s =>
    refine Or.inr ⟨s, rfl, ?_⟩
    by_cases h : s.index < xmssLeaves
    · simp only [dif_pos h]
      cases o with
      | succeeds => exact Or.inr ⟨h, rfl, rfl⟩
      | loadFails => exact Or.inl ⟨s, sk.secretKey, Or.inl rfl, Or.inl rfl, rfl⟩
      | schemeFails => exact Or.inl ⟨s, sk.secretKey, Or.inl rfl, Or.inl rfl, rfl⟩
      | signFails advanced stored =>
        refine Or.inl ⟨if advanced then s.advance h else s, _, ?_, ?_, rfl⟩
        · cases advanced
          · exact Or.inl rfl
          · exact Or.inr ⟨h, rfl⟩
        · cases stored
          · exact Or.inl rfl
          · exact Or.inr rfl
    · simp only [dif_neg h]
      exact Or.inl ⟨s, sk.secretKey, Or.inl rfl, Or.inl rfl, rfl⟩

/-- The key has not yet used the leaf it would sign with next, nor a later one. -/
def LeafSafe (used : List (Key × Nat)) : Prop :=
  ∀ s, sk.currentSecret lib = some s → LeafLedger.Unused used s.key s.index

variable {lib sk}

theorem sign_leafSafe {used : List (Key × Nat)} (message : Uint256) (o : XmssSignOutcome)
    (hs : sk.LeafSafe lib used) (hn : used.Nodup) :
    ((sk.sign lib message o).2.2.toList ++ used).Nodup ∧
      (sk.sign lib message o).2.1.LeafSafe lib ((sk.sign lib message o).2.2.toList ++ used) := by
  rcases sk.sign_cases lib message o with he | ⟨s, hc, hf | ⟨h, -, he⟩⟩
  · rw [he]
    exact ⟨hn, hs⟩
  · obtain ⟨s', blob, hs', -, he⟩ := hf
    rw [he]
    refine ⟨hn, ?_⟩
    intro t ht
    obtain rfl : s' = t := by simpa [currentSecret] using ht
    have hu := hs s hc
    rcases hs' with rfl | ⟨h, rfl⟩
    · exact hu
    · exact hu.mono (Nat.le_succ _)
  · rw [he]
    refine ⟨(hs s hc).nodup_cons hn, ?_⟩
    intro t ht
    obtain rfl : s.advance h = t := by simpa [currentSecret] using ht
    exact (hs s hc).advance

theorem sign_leaf_key {message : Uint256} {o : XmssSignOutcome} {k : Key} {i : Nat}
    (hl : (sk.sign lib message o).2.2 = some (k, i)) :
    ∃ s, sk.currentSecret lib = some s ∧ s.key = k ∧ s.index = i := by
  rcases sk.sign_cases lib message o with he | ⟨s, hc, ⟨s', blob, -, -, he⟩ | ⟨h, -, he⟩⟩
  · simp [he] at hl
  · simp [he] at hl
  · obtain ⟨rfl, rfl⟩ : s.key = k ∧ s.index = i := by simpa [he] using hl
    exact ⟨s, hc, rfl, rfl⟩

theorem sign_currentSecret_key {message : Uint256} {o : XmssSignOutcome} {t : XmssSecret Key}
    (ht : (sk.sign lib message o).2.1.currentSecret lib = some t) :
    ∃ s, sk.currentSecret lib = some s ∧ s.key = t.key := by
  rcases sk.sign_cases lib message o with he | ⟨s, hc, ⟨s', blob, hs', -, he⟩ | ⟨h, -, he⟩⟩
  · exact ⟨t, by simpa [he] using ht, rfl⟩
  · refine ⟨s, hc, ?_⟩
    obtain rfl : s' = t := by simpa [he, currentSecret] using ht
    rcases hs' with rfl | ⟨h, rfl⟩ <;> rfl
  · refine ⟨s, hc, ?_⟩
    obtain rfl : s.advance h = t := by simpa [he, currentSecret] using ht
    rfl

end XmssPrivateKey

namespace SphincsPrivateKey
variable {Key : Type} (lib : Liboqs Key) (sk : SphincsPrivateKey)

def empty : SphincsPrivateKey :=
  ⟨⟨List.replicate sphincsSecretKeySize 0, List.length_replicate⟩,
    ⟨List.replicate sphincsPubkeySize 0, List.length_replicate⟩⟩

def initializeFromEntropy128 (seed : Bytes) : SphincsKeygenOutcome → Bool × SphincsPrivateKey
  | .succeeds => (true, ⟨(lib.sigKeypair seed).2, (lib.sigKeypair seed).1⟩)
  | .fails left => (false, left)

def load (data : Bytes) : Option SphincsPrivateKey :=
  match loadSized sphincsSecretKeySize data with
  | some secretKey => some { sk with secretKey := secretKey }
  | none => none

def attachPublicKey (pubkey : Bytes) : SphincsPrivateKey :=
  match loadSized sphincsPubkeySize pubkey with
  | some pk => { sk with publicKey := pk }
  | none => sk

def sign (message : Uint256) (ok : Bool) : SphincsSignature :=
  if ok then lib.sigSign sk.secretKey message.val else zeroSphincsSignature

end SphincsPrivateKey

def byteSumHashes : Hashes where
  sha256 b := ⟨b.foldl (· + ·) 0 :: List.replicate 31 0, rfl⟩
  ripemd160 _ := []
  sha1 _ := []

theorem samplePublicKey_length (k : UInt8) :
    (k :: List.replicate 67 (0 : UInt8)).length = xmssPubkeySize := by
  rfl

theorem sampleXmssSignature_length (k : UInt8) :
    (1 :: k :: List.replicate 2498 (0 : UInt8)).length = xmssSignatureSize := by
  rw [List.length_cons, List.length_cons, List.length_replicate]
  rfl

theorem sampleSphincsSignature_length :
    (1 :: List.replicate 7855 (0 : UInt8)).length = sphincsSignatureSize := by
  rw [List.length_cons, List.length_replicate]
  rfl

def sampleDeserialize : Bytes → Option (XmssSecret UInt8)
  | [] => none
  | k :: rest => if h : rest.length ≤ xmssLeaves then some ⟨k, rest.length, h⟩ else none

theorem sampleDeserialize_serialize (s : XmssSecret UInt8) :
    sampleDeserialize (s.key :: List.replicate s.index 0) = some s := by
  simp [sampleDeserialize, s.index_le]

def sampleLiboqs : Liboqs UInt8 where
  stflVerify _ sig pk := sig.take 2 = 1 :: pk.take 1
  sigVerify _ sig _ := sig.take 1 = [1]
  stflKeypair seed := seed.headD 0
  stflPublicKey k := ⟨k :: List.replicate 67 0, samplePublicKey_length k⟩
  stflSign k _ _ := ⟨1 :: k :: List.replicate 2498 0, sampleXmssSignature_length k⟩
  stflSerialize s := s.key :: List.replicate s.index 0
  stflDeserialize := sampleDeserialize
  sigKeypair _ := (zeroBytes sphincsPubkeySize, zeroBytes 64)
  sigSign _ _ := ⟨1 :: List.replicate 7855 0, sampleSphincsSignature_length⟩
  stflSerialize_ne_nil _ := List.cons_ne_nil _ _
  stflSerialize_length_le s := by
    have := s.index_le
    simp only [List.length_cons, List.length_replicate, xmssLeaves, xmssTreeHeight] at this ⊢
    omega
  stflDeserialize_nil := rfl
  stflDeserialize_serialize := sampleDeserialize_serialize
  stflVerify_sign _ _ _ _ := decide_eq_true rfl
  sigVerify_sign _ _ := decide_eq_true rfl

end Byze
