import Byze.Wallet.AllKeys
import Byze.KeyLoading

/-! The key records of the wallet as a codec: a packed record is read back as it
was packed, in its own version, and the keys in it are the keys that were
serialized. A record is only loaded for the program of its keys. -/

namespace Byze

namespace QuantumSafeManager
variable {Key : Type} {m : QuantumSafeManager Key}

def savedKeys (m : QuantumSafeManager Key) : Option (Bytes × Bytes × Bytes × Bytes) :=
  match m.xmssPrivate, m.xmssPublic, m.sphincsPrivate, m.sphincsPublic with
  | some xmss, some xmssPub, some sphincs, some sphincsPub =>
    some (xmss.secretKey, xmssPub.val, sphincs.secretKey.val, sphincsPub.val)
  | _, _, _, _ => none

def Storable (m : QuantumSafeManager Key) : Prop :=
  ∃ xmss xmssPub sphincs sphincsPub, m.savedKeys = some (xmss, xmssPub, sphincs, sphincsPub) ∧
    ∀ blob ∈ [xmss, xmssPub, sphincs, sphincsPub], blob ≠ [] ∧ blob.length ≤ 1000000

theorem deserialize_of_storable (hm : m.Storable) : ∃ plain copy, m.serializeDualKeys = some plain ∧
      (deserializeDualKeys plain : Option (QuantumSafeManager Key)) = some copy ∧
      copy.savedKeys = m.savedKeys ∧
      ∀ lib o, copy.getXmssIndex lib o = m.getXmssIndex lib o := by
  obtain ⟨xmss, xmssPub, sphincs, sphincsPub, hsaved, hblobs⟩ := hm
  obtain ⟨xmssPrivate, xmssPublic, sphincsPrivate, sphincsPublic, algo⟩ := m
  match xmssPrivate, xmssPublic, sphincsPrivate, sphincsPublic, hsaved with
  | some sk, some xp, some ss, some sp, hsaved =>
    simp only [savedKeys, Option.some.injEq, Prod.mk.injEq] at hsaved
    obtain ⟨hne, hle⟩ := hblobs sk.secretKey (by simp [hsaved.1])
    exact ⟨_, _, rfl, @deserialize_serializeDualKeys Key sk xp ss sp algo _ hne hle rfl, rfl,
      fun _ _ => rfl⟩

end QuantumSafeManager

variable {Key : Type} {mgr : QuantumSafeManager Key}

theorem programFromManager_eq_some {env : WalletEnv Key}
    {program : Uint256} (h : programFromManager env mgr = some program) :
    env.hashes.sha256 mgr.getDualPublicKeyBundle = program := by
  obtain ⟨-, h⟩ := Option.ite_none_left_eq_some.mp h
  exact Option.some.inj h

theorem unpackQuantumBlobToManager_program {env : WalletEnv Key} {vMasterKey packed : Bytes}
    (h : unpackQuantumBlobToManager env vMasterKey packed = some mgr) :
    ∃ r, unpackQuantumDbRecord packed = some r ∧
      env.hashes.sha256 mgr.getDualPublicKeyBundle = r.program := by
  obtain ⟨r, hr, h⟩ := Option.bind_eq_some_iff.mp h
  obtain ⟨mgr', -, h⟩ := Option.bind_eq_some_iff.mp h
  obtain ⟨hprogram, h⟩ := Option.ite_none_right_eq_some.mp h
  obtain rfl := Option.some.inj h
  exact ⟨r, hr, programFromManager_eq_some hprogram⟩

/-- The origin is not part of a record of the first version and reads as zero. -/
theorem quantumRecord_codec (env : WalletEnv Key) {m : QuantumSafeManager Key} (hm : m.Storable) :
    (∀ encrypted program payload, unpackQuantumDbRecord (packQuantumDbRecordV1 encrypted program payload) =
        some ⟨quantumPackV1, 0, encrypted, program, payload⟩) ∧
    (∀ encrypted origin program payload,
      unpackQuantumDbRecord (packQuantumDbRecordV2 encrypted origin program payload) =
        some ⟨quantumPackV2, origin, encrypted, program, payload⟩) ∧
    (∀ encrypted program payload encrypted' origin program' payload',
      packQuantumDbRecordV1 encrypted program payload ≠
        packQuantumDbRecordV2 encrypted' origin program' payload') ∧
    (∃ plain copy, m.serializeDualKeys = some plain ∧
      (QuantumSafeManager.deserializeDualKeys plain : Option (QuantumSafeManager Key)) = some copy ∧
      copy.savedKeys = m.savedKeys ∧ ∀ o, copy.getXmssIndex env.lib o = m.getXmssIndex env.lib o) ∧
    ∀ vMasterKey packed mgr, unpackQuantumBlobToManager env vMasterKey packed = some mgr →
      ∃ r, unpackQuantumDbRecord packed = some r ∧
        env.hashes.sha256 mgr.getDualPublicKeyBundle = r.program := by
  obtain ⟨plain, copy, hplain, hcopy, hsaved, hindex⟩ := m.deserialize_of_storable hm
  refine ⟨unpack_packQuantumDbRecordV1, unpack_packQuantumDbRecordV2, ?_,
    ⟨plain, copy, hplain, hcopy, hsaved, hindex env.lib⟩,
    fun _ _ _ => unpackQuantumBlobToManager_program⟩
  intro encrypted program payload encrypted' origin program' payload' heq
  have hunpack := unpack_packQuantumDbRecordV1 encrypted program payload
  rw [heq, unpack_packQuantumDbRecordV2] at hunpack
  simp [quantumPackV1, quantumPackV2] at hunpack

theorem storable_seededManager : (seededManager 1).Storable :=
  ⟨_, _, _, _, rfl, by decide +kernel⟩

theorem quantumRecord_codec_sample : ∃ plain copy, (seededManager 1).serializeDualKeys = some plain ∧
      (QuantumSafeManager.deserializeDualKeys plain : Option (QuantumSafeManager UInt8)) = some copy ∧
      copy.savedKeys = (seededManager 1).savedKeys ∧
      ∀ o, copy.getXmssIndex sampleWalletEnv.lib o = (seededManager 1).getXmssIndex sampleWalletEnv.lib o :=
  (quantumRecord_codec sampleWalletEnv storable_seededManager).2.2.2.1

end Byze
