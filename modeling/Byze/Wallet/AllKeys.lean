import Byze.Wallet.KeyRun

/-! What holds of every key that a wallet has in memory or could open from a
record, along the steps of its keys. Storing a key and loading it again keeps
its secret as it was last serialized. -/

namespace Byze

theorem readBlob_length_le {input blob rest : Bytes} (h : readBlob input = some (blob, rest)) :
    blob.length ≤ 1000000 := by
  obtain ⟨-, h⟩ := Option.ite_none_left_eq_some.mp h
  obtain ⟨hsz, h⟩ := Option.ite_none_left_eq_some.mp h
  obtain ⟨-, h⟩ := Option.ite_none_left_eq_some.mp h
  obtain ⟨rfl, -⟩ := Prod.mk.inj (Option.some.inj h)
  have hle := List.length_take_le (LittleEndian.decode (input.take 4)) (input.drop 4)
  omega

theorem readBlob_writeBlob_nil (rest : Bytes) : readBlob (writeBlob [] ++ rest) = none := by
  have hzero : LittleEndian.decode ((writeBlob [] ++ rest).take 4) = 0 := rfl
  have hlen : ¬ (writeBlob [] ++ rest).length < 4 := by
    rw [List.length_append]
    exact Nat.not_lt.mpr (Nat.le_add_right 4 _)
  rw [readBlob, if_neg hlen]
  simp [hzero]

namespace QuantumSafeManager
variable {Key : Type} {m m' : QuantumSafeManager Key} {plain : Bytes}

def Sized (m : QuantumSafeManager Key) : Prop :=
  ∀ sk, m.xmssPrivate = some sk → sk.secretKey.length ≤ 1000000

theorem deserializeDualKeys_cases (h : deserializeDualKeys plain = some m) :
    ∃ blob xp ss sp, blob.length ≤ 1000000 ∧
      m = ⟨some ⟨blob, some xp, none⟩, some xp, some ss, some sp, .dual⟩ := by
  simp only [deserializeDualKeys, Option.bind_eq_bind] at h
  split at h
  · cases h
  obtain ⟨⟨blob, rest⟩, hblob, h⟩ := Option.bind_eq_some_iff.mp h
  obtain ⟨⟨xmssPub, rest'⟩, -, h⟩ := Option.bind_eq_some_iff.mp h
  obtain ⟨⟨sphPriv, rest''⟩, -, h⟩ := Option.bind_eq_some_iff.mp h
  obtain ⟨⟨sphPub, rest'''⟩, -, h⟩ := Option.bind_eq_some_iff.mp h
  obtain ⟨xmss, hxmss, h⟩ := Option.bind_eq_some_iff.mp h
  obtain ⟨xp, hxp, h⟩ := Option.bind_eq_some_iff.mp h
  obtain ⟨sphincs, -, h⟩ := Option.bind_eq_some_iff.mp h
  obtain ⟨sp, -, h⟩ := Option.bind_eq_some_iff.mp h
  obtain ⟨-, hxmss⟩ := Option.ite_none_left_eq_some.mp hxmss
  obtain rfl := Option.some.inj hxmss
  obtain rfl := Option.some.inj h
  refine ⟨blob, xp, sphincs.attachPublicKey sphPub, sp, readBlob_length_le hblob, ?_⟩
  simp [XmssPrivateKey.attachPublicKey, hxp]

theorem sized_of_deserialize (h : deserializeDualKeys plain = some m) : m.Sized := by
  obtain ⟨blob, xp, ss, sp, hle, rfl⟩ := deserializeDualKeys_cases h
  intro sk hsk
  obtain rfl := Option.some.inj hsk
  exact hle

theorem deserializeDualKeys_of_no_secret (rest : Bytes) :
    (deserializeDualKeys (dualKeysHeader ++ (writeBlob [] ++ rest)) : Option (QuantumSafeManager Key)) =
      none := by
  have hheader : dualKeysHeader.length = 6 := rfl
  rw [deserializeDualKeys, List.drop_left' hheader, readBlob_writeBlob_nil]
  rfl

theorem deserialize_of_serialize (hm : m.Sized) (hplain : m.serializeDualKeys = some plain)
    (h : deserializeDualKeys plain = some m') :
    ∃ sk xp ss sp algo, m = ⟨some sk, some xp, some ss, some sp, algo⟩ ∧
      m' = ⟨some ⟨sk.secretKey, some xp, none⟩, some xp, some ⟨ss.secretKey, sp⟩, some sp, .dual⟩ := by
  obtain ⟨xmssPrivate, xmssPublic, sphincsPrivate, sphincsPublic, algo⟩ := m
  cases xmssPrivate with
  | none => cases hplain
  | some sk =>
    cases xmssPublic with
    | none => cases hplain
    | some xp =>
      cases sphincsPrivate with
      | none => cases hplain
      | some ss =>
        cases sphincsPublic with
        | none => cases hplain
        | some sp =>
          by_cases hnil : sk.secretKey = []
          · obtain rfl := Option.some.inj hplain
            rw [hnil, deserializeDualKeys_of_no_secret] at h
            cases h
          · rw [deserialize_serializeDualKeys hnil (hm sk rfl) hplain] at h
            obtain rfl := Option.some.inj h
            exact ⟨sk, xp, ss, sp, algo, rfl, rfl⟩

theorem serializeDualKeys_ne_nil (h : m.serializeDualKeys = some plain) : plain ≠ [] := by
  rw [serializeDualKeys] at h
  split at h
  · obtain rfl := Option.some.inj h
    exact List.cons_ne_nil _ _
  · cases h

theorem sign_sized {lib : Liboqs Key} (hm : m.Sized) (message : Uint256) (o : SignOutcome) :
    (m.sign lib message .xmss o).2.1.Sized := by
  intro sk hsk
  simp only [sign] at hsk
  cases hx : m.xmssPrivate with
  | none =>
    rw [hx] at hsk
    cases hx.symm.trans hsk
  | some x =>
    simp only [hx] at hsk
    split at hsk
    · exact hm sk hsk
    obtain rfl := Option.some.inj hsk
    rcases x.sign_cases lib message o.xmss with he | ⟨s, -, ⟨s', blob, -, hblob, he⟩ | ⟨h, -, he⟩⟩
    · rw [he]
      exact hm x hx
    · rw [he]
      rcases hblob with rfl | rfl
      · exact hm x hx
      · exact lib.stflSerialize_length_le s'
    · rw [he]
      exact lib.stflSerialize_length_le _

end QuantumSafeManager

section
variable {Key : Type} {env : WalletEnv Key} {master : Uint256} {c c' : KeyState Key}
  {mgr mgr' : QuantumSafeManager Key}

theorem programFromManager_sign (mgr : QuantumSafeManager Key) (sighash : Uint256) (o : SignOutcome) :
    programFromManager env (mgr.sign env.lib sighash .xmss o).2.1 = programFromManager env mgr := by
  have hbundle : (mgr.sign env.lib sighash .xmss o).2.1.getDualPublicKeyBundle =
      mgr.getDualPublicKeyBundle := by
    obtain ⟨xmssPrivate, xmssPublic, sphincsPrivate, sphincsPublic, algo⟩ := mgr
    cases xmssPrivate with
    | none => rfl
    | some sk =>
      simp only [QuantumSafeManager.sign]
      split
      · rfl
      · cases xmssPublic <;> cases sphincsPrivate <;> cases sphincsPublic <;> rfl
  simp [programFromManager, hbundle]

/-- The key is that of a record, under the master key if it is sealed. -/
def OpensTo (env : WalletEnv Key) (master : Uint256) (packed : Bytes) (mgr : QuantumSafeManager Key) : Prop :=
  ∃ r, unpackQuantumDbRecord packed = some r ∧ openQuantumPayload env master.val r = some mgr

/-- Every key in memory, and every key that a record opens to under the master
key, is in `Good`, and the wallet is unlocked with the master key only. -/
structure AllKeys (env : WalletEnv Key) (master : Uint256) (Good : QuantumSafeManager Key → Prop)
    (c : KeyState Key) : Prop where
  memory : ∀ mgr, c.manager = some mgr → Good mgr
  stored : ∀ key packed mgr, c.record key = some packed → OpensTo env master packed mgr → Good mgr
  unlocked : c.masterKey = [] ∨ c.masterKey = master.val

def KeptByCopies (Good : QuantumSafeManager Key → Prop) : Prop :=
  ∀ mgr plain mgr', Good mgr → mgr.serializeDualKeys = some plain →
    QuantumSafeManager.deserializeDualKeys plain = some mgr' → Good mgr'

theorem opensTo_sealed {packed plain : Bytes} {r : QuantumRecord} (hplain : plain ≠ [])
    (hr : unpackQuantumDbRecord packed = some r)
    (hseal : (if r.encrypted then env.crypter.encryptSecret master.val plain (quantumWalletIv env)
      else some plain) = some r.payload)
    (h : OpensTo env master packed mgr') : QuantumSafeManager.deserializeDualKeys plain = some mgr' := by
  obtain ⟨r', hr', hopen⟩ := h
  obtain rfl := Option.some.inj (hr.symm.trans hr')
  rw [openQuantumPayload] at hopen
  cases he : r.encrypted with
  | false =>
    simp only [he] at hopen hseal
    rwa [Option.some.inj hseal]
  | true =>
    simp only [he] at hopen hseal
    obtain ⟨-, hopen⟩ := Option.ite_none_left_eq_some.mp hopen
    rwa [env.crypter.decryptSecret_encryptSecret _ _ _ _ hplain hseal] at hopen

/-- A record that opens with the key in memory opens with the master key. -/
theorem opensTo_of_unlocked {packed : Bytes} {r : QuantumRecord} {masterKey : Bytes}
    (hkey : masterKey = [] ∨ masterKey = master.val) (hr : unpackQuantumDbRecord packed = some r)
    (hopen : openQuantumPayload env masterKey r = some mgr) : OpensTo env master packed mgr := by
  refine ⟨r, hr, ?_⟩
  rcases hkey with rfl | rfl
  · rw [openQuantumPayload] at hopen ⊢
    split at hopen
    · rw [if_pos rfl] at hopen
      cases hopen
    next he => rwa [if_neg he]
  · exact hopen

variable {packed : Bytes}

theorem opensTo_pack {origin : UInt8} (hkey : c.masterKey = [] ∨ c.masterKey = master.val)
    (hpack : c.pack env origin mgr = some packed) (h : OpensTo env master packed mgr') :
    ∃ plain, mgr.serializeDualKeys = some plain ∧
      QuantumSafeManager.deserializeDualKeys plain = some mgr' := by
  obtain ⟨plain, hplain, hpack⟩ := Option.bind_eq_some_iff.mp hpack
  obtain ⟨payload, hpayload, hpack⟩ := Option.bind_eq_some_iff.mp hpack
  obtain ⟨program, -, rfl⟩ := Option.map_eq_some_iff.mp hpack
  refine ⟨plain, hplain, opensTo_sealed (QuantumSafeManager.serializeDualKeys_ne_nil hplain)
    (unpack_packQuantumDbRecordV2 _ _ _ _) ?_ h⟩
  rcases hkey with hkey | hkey
  · simpa [KeyState.encrypting, hkey] using hpayload
  · rwa [hkey] at hpayload

theorem KeyState.record_of_read {key : QuantumDbKey} (h : c.read key = some packed) :
    c.record key = some packed := by
  obtain ⟨packed', hrecord, h⟩ := Option.bind_eq_some_iff.mp h
  obtain ⟨-, h⟩ := Option.ite_none_left_eq_some.mp h
  rw [hrecord, h]

variable {Good : QuantumSafeManager Key → Prop}
  (hder : ∀ root ref o mgr, derivedKey env root ref o = some mgr → Good mgr)

include hder in
theorem KeyState.Loads.good {ref : QuantumKeyRef} (h : c.Loads env ref mgr) (hc : AllKeys env master Good c) :
    Good mgr := by
  cases h with
  | record packed hread hopen =>
    obtain ⟨key, -, hkey⟩ := List.exists_of_findSome?_eq_some hread
    obtain ⟨r, hr, hopen⟩ := Option.bind_eq_some_iff.mp hopen
    obtain ⟨mgr', hmgr', hopen⟩ := Option.bind_eq_some_iff.mp hopen
    obtain ⟨-, hopen⟩ := Option.ite_none_right_eq_some.mp hopen
    obtain rfl := Option.some.inj hopen
    exact hc.stored key packed mgr' (record_of_read hkey) (opensTo_of_unlocked hc.unlocked hr hmgr')
  | derived root o hnone hderived => exact hder _ _ _ _ hderived

include hder in
theorem KeyState.Source.good {ref : QuantumKeyRef} (h : c.Source env ref mgr) (hc : AllKeys env master Good c) :
    Good mgr := by
  cases h with
  | loads h => exact h.good hder hc
  | memory program _ hmgr => exact hc.memory mgr hmgr

theorem AllKeys.write {keys : List QuantumDbKey} (hc : AllKeys env master Good c)
    (hpacked : ∀ mgr, OpensTo env master packed mgr → Good mgr) : AllKeys env master Good (c.write keys packed) := by
  refine ⟨hc.memory, fun key packed' mgr hrecord hopen => ?_, hc.unlocked⟩
  by_cases hkey : key ∈ keys
  · obtain rfl : packed = packed' := by simpa [KeyState.write, hkey] using hrecord
    exact hpacked mgr hopen
  · exact hc.stored key packed' mgr (by simpa [KeyState.write, hkey] using hrecord) hopen

theorem AllKeys.write_pack {origin : UInt8} (hcopy : KeptByCopies Good)
    (hc : AllKeys env master Good c) (hmgr : Good mgr) (hpack : c.pack env origin mgr = some packed)
    (keys : List QuantumDbKey) : AllKeys env master Good (c.write keys packed) := by
  refine hc.write fun mgr' h => ?_
  obtain ⟨plain, hplain, hd⟩ := opensTo_pack hc.unlocked hpack h
  exact hcopy mgr plain mgr' hmgr hplain hd

theorem AllKeys.with_manager (hc : AllKeys env master Good c) {crypted loaded : Bool} {masterKey : Bytes}
    {manager : Option (QuantumSafeManager Key)} {program : Option Uint256} {origin format : UInt8}
    {leaves : List (Key × Nat)} (hmanager : ∀ mgr, manager = some mgr → Good mgr)
    (hkey : masterKey = [] ∨ masterKey = master.val) :
    AllKeys env master Good ⟨c.record, loaded, crypted, masterKey, manager, program, origin, format, leaves⟩ :=
  ⟨hmanager, hc.stored, hkey⟩

theorem AllKeys.rekey (hc : AllKeys env master Good c) (hkey : c.masterKey = [])
    (hplain : ∀ key packed, c.record key = some packed → ¬ SealedRecord packed) (master' : Uint256) :
    AllKeys env master' Good c := by
  refine ⟨hc.memory, fun key packed mgr hrecord hopen => ?_, Or.inl hkey⟩
  obtain ⟨r, hr, hopen⟩ := hopen
  have he : ¬ r.encrypted = true := fun he => hplain key packed hrecord ⟨r, hr, he⟩
  refine hc.stored key packed mgr hrecord ⟨r, hr, ?_⟩
  rw [openQuantumPayload, if_neg he] at hopen ⊢
  exact hopen

theorem AllKeys.clone (hcopy : KeptByCopies Good) (hmgr : Good mgr) :
    ∀ mgr', cloneQuantumManager mgr = some mgr' → Good mgr' := by
  intro mgr' h
  obtain ⟨plain, hplain, hd⟩ := Option.bind_eq_some_iff.mp h
  exact hcopy mgr plain mgr' hmgr hplain hd

theorem AllKeys.keepSigned (hcopy : KeptByCopies Good) (hc : AllKeys env master Good c) (hmgr : Good mgr)
    (ref : QuantumKeyRef) : AllKeys env master Good (c.keepSigned env ref mgr) := by
  rw [KeyState.keepSigned]
  split
  · exact hc.with_manager (AllKeys.clone hcopy hmgr) hc.unlocked
  · exact hc

include hder in
theorem KeyStep.allKeys (hcopy : KeptByCopies Good) (h : KeyStep env master c c') (hc : AllKeys env master Good c) :
    AllKeys env master Good c' := by
  have hopened : ∀ {packed : Bytes} {r : QuantumRecord} {masterKey : Bytes},
      masterKey = [] ∨ masterKey = master.val → c.read .state = some packed →
      unpackQuantumDbRecord packed = some r →
      ∀ mgr, openQuantumPayload env masterKey r = some mgr → Good mgr :=
    fun hkey hread hr mgr hopen => hc.stored .state _ mgr (KeyState.record_of_read hread)
      (opensTo_of_unlocked hkey hr hopen)
  cases h with
  | keys crypted masterKey manager hmanager hmaster =>
    refine hc.with_manager (fun mgr hmgr => ?_) ?_
    · rcases hmanager with rfl | rfl
      · exact hc.memory mgr hmgr
      · cases hmgr
    · rcases hmaster with rfl | hmaster
      · exact hc.unlocked
      · exact hmaster
  | clear => exact hc.with_manager (by simp) hc.unlocked
  | apply packed r manager hread hr hopen =>
    exact hc.with_manager (fun mgr hmgr => hopened hc.unlocked hread hr mgr (hopen mgr hmgr)) hc.unlocked
  | encrypt mgr program plain cipher packed hmgr _ hplain hcipher hpacked =>
    refine hc.write fun mgr' h => ?_
    refine hcopy mgr plain mgr' (hc.memory mgr hmgr) hplain ?_
    have hne := QuantumSafeManager.serializeDualKeys_ne_nil hplain
    split at hpacked
    · subst hpacked
      exact opensTo_sealed hne (unpack_packQuantumDbRecordV2 true _ program cipher) hcipher h
    · subst hpacked
      exact opensTo_sealed hne (unpack_packQuantumDbRecordV1 true program cipher) hcipher h
  | close => exact hc.with_manager (by simp) (Or.inl rfl)
  | load => exact hc.with_manager (by simp) (Or.inl rfl)
  | loadState crypted packed r manager hread hr hopen =>
    exact hc.with_manager (fun mgr hmgr => hopened (Or.inl rfl) hread hr mgr (hopen mgr hmgr)) (Or.inl rfl)
  | store ref mgr packed keys program _ hloads hpack =>
    have hw := hc.write_pack hcopy (hloads.good hder hc) hpack keys
    exact hw.with_manager hw.memory hw.unlocked
  | fromRoot root o mgr program packed keys taken _ hderived _ hpack =>
    have hmgr := hder _ _ _ _ hderived
    have hw := hc.write_pack hcopy hmgr hpack keys
    rw [KeyState.refresh]
    split
    · exact hw.with_manager (AllKeys.clone hcopy hmgr) hw.unlocked
    · exact hw

include hder in
theorem SignStep.allKeys {program : Uint256} (hcopy : KeptByCopies Good)
    (hsign : ∀ mgr sighash o, Good mgr → programFromManager env mgr = some program →
      Good (mgr.sign env.lib sighash .xmss o).2.1)
    (h : SignStep env program c c') (hc : AllKeys env master Good c) : AllKeys env master Good c' := by
  cases h with
  | advance mgr sighash o hmgr hown =>
    refine hc.with_manager (fun mgr' hmgr' => ?_) hc.unlocked
    obtain rfl := Option.some.inj hmgr'
    exact hsign mgr sighash o (hc.memory mgr hmgr) hown
  | unsaved ref mgr sighash o _ hsource hown =>
    exact hc.keepSigned hcopy (hsign mgr sighash o (hsource.good hder hc) hown) ref
  | signed ref mgr sighash o packed _ hsource hown hpack =>
    have hmgr := hsign mgr sighash o (hsource.good hder hc) hown
    have hw := hc.write_pack hcopy hmgr hpack ref.dbKeys
    exact (hw.with_manager hw.memory hw.unlocked).keepSigned hcopy hmgr ref

theorem allKeys_new (keypoolSize : Nat) (outcomes : Nat → Outcome) :
    AllKeys env master Good (World.new Key keypoolSize outcomes).keyState := by
  refine ⟨fun mgr h => ?_, fun key packed mgr h => ?_, Or.inl rfl⟩
  · cases h
  · cases h

include hder in
theorem KeySteps.allKeys {signs : Uint256 → Prop} (hcopy : KeptByCopies Good)
    (hsign : ∀ program mgr sighash o, signs program → Good mgr →
      programFromManager env mgr = some program → Good (mgr.sign env.lib sighash .xmss o).2.1)
    (h : KeySteps env master signs c c') (hc : AllKeys env master Good c) : AllKeys env master Good c' := by
  induction h with
  | refl => exact hc
  | tail _ hstep ih =>
    rcases hstep with hstep | ⟨program, hp, hstep⟩
    · exact hstep.allKeys hder hcopy ih
    · exact hstep.allKeys hder hcopy (fun mgr sighash o => hsign program mgr sighash o hp) ih

/-- No key for encryption is in memory, and no record is sealed. -/
def World.NothingSealed (w : World Key) : Prop :=
  w.wallet.vMasterKey = [] ∧ ∀ key packed, w.db.quantum key = some packed → ¬ SealedRecord packed

/-- The wallet's secrets are under one master key all through the run. A
passphrase that opens a master key gives that key, and another one is only drawn
where nothing is sealed. -/
def OneMasterKey (env : WalletEnv Key) : World Key → Uint256 → List WalletEvent → Prop
  | _, _, [] => True
  | w, master, e :: es => (∀ p ∈ e.op.passphrase, OpensOnly env.crypter master w.wallet.mapMasterKeys p) ∧
      (eventKey w e master ≠ master → w.NothingSealed) ∧
      OneMasterKey env (walletStep env w e) (eventKey w e master) es

include hder in
theorem walletRun_allKeys (signs : Uint256 → Prop) (hcopy : KeptByCopies Good)
    (hsign : ∀ program mgr sighash o, signs program → Good mgr →
      programFromManager env mgr = some program → Good (mgr.sign env.lib sighash .xmss o).2.1)
    {w : World Key} {es : List WalletEvent} (hw : AllKeys env master Good w.keyState)
    (hone : OneMasterKey env w master es) (hes : ∀ e ∈ es, ∀ program, e.op.signs program → signs program) :
    ∃ master', AllKeys env master' Good (walletRun env w es).keyState := by
  induction es generalizing w master with
  | nil => exact ⟨master, hw⟩
  | cons e es ih =>
    obtain ⟨hopens, hanew, hone⟩ := hone
    have hw' : AllKeys env (eventKey w e master) Good w.keyState := by
      by_cases hsame : eventKey w e master = master
      · rwa [hsame]
      · exact hw.rekey (hanew hsame).1 (hanew hsame).2 _
    refine ih ((walletStep_steps hopens).allKeys hder hcopy ?_ hw') hone
      fun e' he' => hes e' (List.mem_cons_of_mem e he')
    exact fun program mgr sighash o hp => hsign program mgr sighash o (hes e List.mem_cons_self program hp)

theorem oneMasterKey_of_keyless {w : World Key} {es : List WalletEvent}
    (hes : ∀ e ∈ es, e.op.passphrase = none ∧ e.op.draws = false) : OneMasterKey env w master es := by
  induction es generalizing w with
  | nil => trivial
  | cons e es ih =>
    obtain ⟨hopens, hdraws⟩ := hes e List.mem_cons_self
    have hsame : eventKey w e master = master := by simp [eventKey, masterKeyAfter, hdraws]
    refine ⟨by simp [hopens], fun hne => absurd hsame hne, ?_⟩
    rw [hsame]
    exact ih fun e' he' => hes e' (List.mem_cons_of_mem e he')

theorem AllKeys.seals {w : World Key} (hw : AllKeys env master Good w.keyState) : w.wallet.Seals := by
  intro henc
  rcases hw.unlocked with hnil | hkey
  · simp [CWallet.encrypting, show w.wallet.vMasterKey = [] from hnil] at henc
  · rw [show w.wallet.vMasterKey = master.val from hkey]
    exact master.property
end

end Byze
