import Byze.DualKeys
import Byze.TxCheck

/-! The wallet's key records: the packed layouts of a record, the encryption of
its payload, and the entropy that the wallet derives a key from. -/

namespace Byze

def walletCryptoKeySize : Nat := 32
def walletCryptoSaltSize : Nat := 8
def defaultDeriveIterations : Nat := 25000

/-- The wallet's encryption. Only a key of 32 bytes encrypts, and it encrypts
everything; what is not empty is read back with the same key, and the padding
makes its ciphertext longer. Nothing is known of what another key or passphrase
reads. -/
structure Crypter where
  encryptSecret : Bytes → Bytes → Uint256 → Option Bytes
  decryptSecret : Bytes → Bytes → Uint256 → Option Bytes
  setKeyFromPassphrase : Bytes → Bytes → Nat → Bytes × Uint256
  encryptSecret_isSome : ∀ key plain iv,
    (encryptSecret key plain iv).isSome = true ↔ key.length = walletCryptoKeySize
  decryptSecret_encryptSecret : ∀ key plain iv cipher, plain ≠ [] →
    encryptSecret key plain iv = some cipher → decryptSecret key cipher iv = some plain
  encryptSecret_length : ∀ key plain iv cipher, plain ≠ [] →
    encryptSecret key plain iv = some cipher → plain.length < cipher.length

structure CMasterKey where
  vchCryptedKey : Bytes
  vchSalt : Bytes
  nDeriveIterations : Nat
  deriving DecidableEq

/-- The number of rounds is what was measured on this machine, but not less
than the default. -/
def encryptMasterKey (cr : Crypter) (passphrase plainMasterKey salt : Bytes) (measured : Nat) :
    Option CMasterKey :=
  let rounds := max measured defaultDeriveIterations
  if rounds < 1 ∨ salt.length ≠ walletCryptoSaltSize then none
  else
    let (key, iv) := cr.setKeyFromPassphrase passphrase salt rounds
    (cr.encryptSecret key plainMasterKey iv).map fun cipher => ⟨cipher, salt, rounds⟩

def decryptMasterKey (cr : Crypter) (passphrase : Bytes) (masterKey : CMasterKey) : Option Bytes :=
  if masterKey.nDeriveIterations < 1 ∨ masterKey.vchSalt.length ≠ walletCryptoSaltSize then none
  else
    let (key, iv) :=
      cr.setKeyFromPassphrase passphrase masterKey.vchSalt masterKey.nDeriveIterations
    cr.decryptSecret key masterKey.vchCryptedKey iv

theorem decryptMasterKey_encryptMasterKey {cr : Crypter} {passphrase plain salt : Bytes} {measured : Nat}
    {masterKey : CMasterKey} (hplain : plain ≠ [])
    (he : encryptMasterKey cr passphrase plain salt measured = some masterKey) :
    decryptMasterKey cr passphrase masterKey = some plain := by
  simp only [encryptMasterKey] at he
  split at he
  · cases he
  next hsound =>
    obtain ⟨cipher, hc, rfl⟩ := Option.map_eq_some_iff.mp he
    rw [decryptMasterKey, if_neg hsound]
    exact cr.decryptSecret_encryptSecret _ _ _ _ hplain hc

def quantumPackV1 : UInt8 := 1
def quantumPackV2 : UInt8 := 2
def quantumOriginHdMaster : UInt8 := 1

structure QuantumRecord where
  format : UInt8
  origin : UInt8
  encrypted : Bool
  program : Uint256
  payload : Bytes
  deriving DecidableEq

def packQuantumDbRecordV1 (encrypted : Bool) (program : Uint256) (payload : Bytes) : Bytes :=
  quantumPackV1 :: encrypted.toUInt8 :: (program.val ++ payload)

def packQuantumDbRecordV2 (encrypted : Bool) (origin : UInt8) (program : Uint256) (payload : Bytes) : Bytes :=
  quantumPackV2 :: encrypted.toUInt8 :: origin :: (program.val ++ payload)

def unpackQuantumDbRecord (raw : Bytes) : Option QuantumRecord :=
  if raw.length < 1 + 1 + 32 then none
  else
    match raw with
    | format :: encrypted :: rest =>
      if format = quantumPackV1 then
        (loadSized 32 (rest.take 32)).map fun program =>
          ⟨format, 0, encrypted ≠ 0, program, rest.drop 32⟩
      else if format = quantumPackV2 then
        match rest with
        | origin :: rest =>
          if raw.length < 1 + 1 + 1 + 32 then none
          else
            (loadSized 32 (rest.take 32)).map fun program =>
              ⟨format, origin, encrypted ≠ 0, program, rest.drop 32⟩
        | [] => none
      else none
    | _ => none

theorem loadSized_take_append (program : Uint256) (payload : Bytes) :
    loadSized 32 ((program.val ++ payload).take 32) = some program := by
  rw [List.take_left' program.property]
  exact dif_pos program.property

theorem unpack_packQuantumDbRecordV1 (encrypted : Bool) (program : Uint256) (payload : Bytes) :
    unpackQuantumDbRecord (packQuantumDbRecordV1 encrypted program payload) =
      some ⟨quantumPackV1, 0, encrypted, program, payload⟩ := by
  have hlen : ¬ (packQuantumDbRecordV1 encrypted program payload).length < 1 + 1 + 32 := by
    simp [packQuantumDbRecordV1, program.property]
  simp only [unpackQuantumDbRecord, if_neg hlen]
  simp only [packQuantumDbRecordV1, loadSized_take_append, List.drop_left' program.property]
  cases encrypted <;> rfl

theorem unpack_packQuantumDbRecordV2 (encrypted : Bool) (origin : UInt8) (program : Uint256)
    (payload : Bytes) :
    unpackQuantumDbRecord (packQuantumDbRecordV2 encrypted origin program payload) =
      some ⟨quantumPackV2, origin, encrypted, program, payload⟩ := by
  have hlen : ¬ (packQuantumDbRecordV2 encrypted origin program payload).length < 1 + 1 + 1 + 32 := by
    simp [packQuantumDbRecordV2, program.property]
  have hlen' : ¬ (packQuantumDbRecordV2 encrypted origin program payload).length < 1 + 1 + 32 := by
    omega
  simp only [unpackQuantumDbRecord, if_neg hlen', if_neg hlen]
  simp only [packQuantumDbRecordV2, loadSized_take_append, List.drop_left' program.property]
  cases encrypted <;> rfl

def SealedRecord (raw : Bytes) : Prop :=
  ∃ r, unpackQuantumDbRecord raw = some r ∧ r.encrypted = true

instance (raw : Bytes) : Decidable (SealedRecord raw) :=
  match h : unpackQuantumDbRecord raw with
  | none => isFalse fun ⟨r, hr, _⟩ => by rw [h] at hr; cases hr
  | some r =>
    if he : r.encrypted = true then isTrue ⟨r, h, he⟩
    else isFalse fun ⟨r', hr, he'⟩ => he (by rw [h] at hr; cases hr; exact he')

theorem sealedRecord_packV1 (program : Uint256) (payload : Bytes) :
    SealedRecord (packQuantumDbRecordV1 true program payload) :=
  ⟨_, unpack_packQuantumDbRecordV1 _ _ _, rfl⟩

theorem sealedRecord_packV2 (origin : UInt8) (program : Uint256) (payload : Bytes) :
    SealedRecord (packQuantumDbRecordV2 true origin program payload) :=
  ⟨_, unpack_packQuantumDbRecordV2 _ _ _ _, rfl⟩

end Byze
