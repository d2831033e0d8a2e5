import Byze.Wallet.MatchedKeys

/-! The leaves that the keys of a wallet have used, as far as the wallet knows:
by the key in memory, or else by the stored one. A call for a signature uses at
most the next leaf of the key that signs. -/

namespace Byze
open StateWp KeyState

namespace KeyState
variable {Key : Type} (env : WalletEnv Key) (c : KeyState Key)

def heldKey (ref : QuantumKeyRef) (program : Uint256) : Option (QuantumSafeManager Key) :=
  (if ref = ⟨false, 0⟩ ∧ c.program = some program then c.manager else none).or
    ((ref.dbKeys.findSome? c.read).bind (unpackQuantumBlobToManager env c.masterKey))

/-- How many leaves of the key for a program are used. A key that is yet to be
derived has used none. -/
def leavesUsed (ref : QuantumKeyRef) (program : Uint256) : Nat :=
  match c.heldKey env ref program with
  | some mgr => if programFromManager env mgr = some program then mgr.leavesUsed env.lib else 0
  | none => 0

end KeyState

/-- A leaf of some key is used afterwards that was not used before. -/
def UsesLeaf {Key : Type} (env : WalletEnv Key) (w w' : World Key) : Prop :=
  ∃ ref program, w.keyState.leavesUsed env ref program < w'.keyState.leavesUsed env ref program

section
variable {Key : Type} {env : WalletEnv Key} {c c' : KeyState Key} {ref : QuantumKeyRef}
  {program sighash : Uint256} {mgr : QuantumSafeManager Key} {inMemory : Bool} {w : World Key}

theorem KeyState.leavesUsed_of_held (hheld : c.heldKey env ref program = some mgr)
    (hown : programFromManager env mgr = some program) :
    c.leavesUsed env ref program = mgr.leavesUsed env.lib := by
  simp [leavesUsed, hheld, hown]

theorem KeyState.leavesUsed_le (h : ∀ mgr, c'.heldKey env ref program = some mgr →
    programFromManager env mgr = some program →
    c.heldKey env ref program = some mgr ∨ mgr.leavesUsed env.lib ≤ c.leavesUsed env ref program) :
    c'.leavesUsed env ref program ≤ c.leavesUsed env ref program := by
  cases hheld : c'.heldKey env ref program with
  | none =>
    rw [leavesUsed, hheld]
    exact Nat.zero_le _
  | some mgr =>
    by_cases hown : programFromManager env mgr = some program
    · rw [leavesUsed_of_held hheld hown]
      rcases h mgr hheld hown with hsame | hle
      · exact (leavesUsed_of_held hsame hown).ge
      · exact hle
    · simp [leavesUsed, hheld, hown]

theorem SigningWith.leavesUsed {outputProgram : Bytes}
    (h : SigningWith env w outputProgram program ref mgr inMemory) :
    w.keyState.leavesUsed env ref program = mgr.leavesUsed env.lib := by
  have hmem : (if ref = ⟨false, 0⟩ ∧ w.keyState.program = some program then w.keyState.manager else none) =
      if inMemory then some mgr else none := h.memory
  cases inMemory with
  | true => exact leavesUsed_of_held (by rw [heldKey, hmem]; rfl) h.own
  | false =>
    have hkey := h.key
    simp only [signingKey, h.memory, storedOrDerivedKey] at hkey
    have hheld : w.keyState.heldKey env ref program =
        (ref.dbKeys.findSome? w.db.readQuantum).bind (unpackQuantumBlobToManager env w.wallet.vMasterKey) := by
      rw [heldKey, hmem]
      rfl
    cases hread : ref.dbKeys.findSome? w.db.readQuantum with
    | some packed =>
      rw [hread] at hkey hheld
      exact leavesUsed_of_held (hheld.trans hkey) h.own
    | none =>
      rw [hread] at hkey hheld
      obtain ⟨root, -, hder⟩ := Option.bind_eq_some_iff.mp hkey
      rw [(QuantumSafeManager.matched_of_derivedKey hder).2, leavesUsed, hheld]
      rfl

theorem unpackQuantumBlobToManager_pack {origin : UInt8} {packed plain : Bytes}
    {copy : QuantumSafeManager Key} (hsized : mgr.Sized) (hpack : c.pack env origin mgr = some packed)
    (hplain : mgr.serializeDualKeys = some plain)
    (hcopy : QuantumSafeManager.deserializeDualKeys plain = some copy) :
    unpackQuantumBlobToManager env c.masterKey packed = some copy := by
  have hprogram := (QuantumSafeManager.copy_eq env hsized hplain hcopy).1
  obtain ⟨plain', hplain', hpack⟩ := Option.bind_eq_some_iff.mp hpack
  obtain rfl := Option.some.inj (hplain.symm.trans hplain')
  obtain ⟨payload, hpayload, hpack⟩ := Option.bind_eq_some_iff.mp hpack
  obtain ⟨program, hown, rfl⟩ := Option.map_eq_some_iff.mp hpack
  have hopen : openQuantumPayload env c.masterKey
      ⟨quantumPackV2, origin, c.encrypting, program, payload⟩ = some copy := by
    cases henc : c.encrypting with
    | false =>
      rw [henc] at hpayload
      obtain rfl := Option.some.inj hpayload
      exact hcopy
    | true =>
      rw [henc] at hpayload
      have hkey : c.masterKey ≠ [] := by
        rintro hnil
        simp [encrypting, hnil] at henc
      have hne : plain ≠ [] := by
        rintro rfl
        cases hcopy
      simp [openQuantumPayload, hkey, env.crypter.decryptSecret_encryptSecret _ _ _ _ hne hpayload, hcopy]
  simp [unpackQuantumBlobToManager, unpack_packQuantumDbRecordV2, hopen, hprogram, hown]

theorem KeyState.findSome?_read_write {packed : Bytes} (hne : packed ≠ []) (ref ref' : QuantumKeyRef) :
    ref'.dbKeys.findSome? (c.write ref.dbKeys packed).read =
      if ref' = ref then some packed else ref'.dbKeys.findSome? c.read := by
  have hread : ∀ key, (c.write ref.dbKeys packed).read key =
      if key.ref = ref then some packed else c.read key := by
    intro key
    simp only [read, write, QuantumKeyRef.mem_dbKeys]
    split <;> simp [hne]
  generalize (c.write ref.dbKeys packed).read = read at hread
  obtain ⟨change, index⟩ := ref'
  cases change with
  | true => by_cases heq : ⟨true, index⟩ = ref <;> simp [QuantumKeyRef.dbKeys, hread, QuantumDbKey.ref, heq]
  | false =>
    by_cases h0 : index = 0
    · subst h0
      by_cases heq : ⟨false, 0⟩ = ref <;>
        simp [QuantumKeyRef.dbKeys, hread, QuantumDbKey.ref, heq, List.findSome?_cons]
    · by_cases heq : ⟨false, index⟩ = ref <;> simp [QuantumKeyRef.dbKeys, hread, QuantumDbKey.ref, heq, h0]

variable {mgr' copy : QuantumSafeManager Key}

theorem KeyState.heldKey_signed {packed plain : Bytes} {leaves : List (Key × Nat)} (hsized : mgr'.Sized)
    (hpack : c.pack env c.origin mgr' = some packed) (hplain : mgr'.serializeDualKeys = some plain)
    (hcopy : QuantumSafeManager.deserializeDualKeys plain = some copy) (ref' : QuantumKeyRef)
    (program' : Uint256) :
    heldKey env (({ c.write ref.dbKeys packed with leaves := leaves } : KeyState Key).keepSigned
      env ref mgr') ref' program' = if ref' = ref then some copy else c.heldKey env ref' program' := by
  have hopen := unpackQuantumBlobToManager_pack hsized hpack hplain hcopy
  have hne : packed ≠ [] := by
    rintro rfl
    cases hopen
  have hclone : cloneQuantumManager mgr' = some copy := by
    simp [cloneQuantumManager, hplain, hcopy]
  have hrecord : (ref'.dbKeys.findSome? (c.write ref.dbKeys packed).read).bind
      (unpackQuantumBlobToManager env c.masterKey) = if ref' = ref then some copy else
        (ref'.dbKeys.findSome? c.read).bind (unpackQuantumBlobToManager env c.masterKey) := by
    rw [findSome?_read_write hne]
    split
    · exact hopen
    · rfl
  by_cases hsame : ref' = ref
  · subst hsame
    rw [if_pos rfl] at hrecord ⊢
    by_cases href : ref' = ⟨false, 0⟩
    · rw [keepSigned, if_pos href]
      change (if ref' = ⟨false, 0⟩ ∧ programFromManager env mgr' = some program' then cloneQuantumManager mgr'
        else none).or ((ref'.dbKeys.findSome? (c.write ref'.dbKeys packed).read).bind
          (unpackQuantumBlobToManager env c.masterKey)) = some copy
      rw [hrecord, hclone]
      split <;> rfl
    · rw [keepSigned, if_neg href, heldKey, if_neg fun h => href h.1]
      exact hrecord
  · rw [if_neg hsame] at hrecord ⊢
    by_cases href : ref = ⟨false, 0⟩
    · have hother : ref' ≠ ⟨false, 0⟩ := href ▸ hsame
      rw [keepSigned, if_pos href, heldKey, if_neg fun h => hother h.1, heldKey, if_neg fun h => hother h.1]
      exact congrArg _ hrecord
    · rw [keepSigned, if_neg href]
      exact congrArg _ hrecord

theorem KeyState.heldKey_advanced (mgr' : QuantumSafeManager Key) (ref' : QuantumKeyRef)
    (program' : Uint256) : (c.advanced true mgr').heldKey env ref' program' =
      if ref' = ⟨false, 0⟩ ∧ c.program = some program' then some mgr'
      else (ref'.dbKeys.findSome? c.read).bind (unpackQuantumBlobToManager env c.masterKey) := by
  change (if ref' = ⟨false, 0⟩ ∧ c.program = some program' then some mgr' else none).or _ = _
  split <;> rfl

theorem KeyState.heldKey_unsaved {plain : Bytes}
    (hown : programFromManager env mgr' = some program) (hplain : mgr'.serializeDualKeys = some plain)
    (hcopy : QuantumSafeManager.deserializeDualKeys plain = some copy) (ref' : QuantumKeyRef)
    (program' : Uint256) :
    (c.keepSigned env ⟨false, 0⟩ mgr').heldKey env ref' program' =
      if ref' = ⟨false, 0⟩ ∧ some program = some program' then some copy
      else (ref'.dbKeys.findSome? c.read).bind (unpackQuantumBlobToManager env c.masterKey) := by
  have hclone : cloneQuantumManager mgr' = some copy := by
    simp [cloneQuantumManager, hplain, hcopy]
  change (if ref' = ⟨false, 0⟩ ∧ programFromManager env mgr' = some program' then cloneQuantumManager mgr'
    else none).or _ = _
  rw [hclone, hown]
  split <;> rfl

variable {outputProgram : Bytes} {outcomes : Nat → Outcome} {r : Option QuantumSignature}

theorem SigningEnds.leavesUsed_le (hwith : SigningWith env w outputProgram program ref mgr inMemory)
    (hmatched : mgr.Matched env.lib) (hleft : ¬ mgr.LeafLeft env.lib)
    (hend : SigningEnds env w.keyState ref inMemory mgr sighash outcomes r c') (ref' : QuantumKeyRef)
    (program' : Uint256) :
    c'.leavesUsed env ref' program' ≤ w.keyState.leavesUsed env ref' program' := by
  have hused := hwith.leavesUsed
  have hown : ∀ o, programFromManager env (mgr.sign env.lib sighash .xmss o).2.1 = some program :=
    fun o => (programFromManager_sign mgr sighash o).trans hwith.own
  have hsign := hmatched.leavesUsed_sign_le hleft sighash
  have hcopied : ∀ o plain copy, (mgr.sign env.lib sighash .xmss o).2.1.serializeDualKeys = some plain →
      QuantumSafeManager.deserializeDualKeys plain = some copy →
      programFromManager env copy = some program ∧ copy.leavesUsed env.lib ≤ mgr.leavesUsed env.lib := by
    intro o plain copy hplain hcopy
    have hmatched' := hmatched.sign sighash o
    obtain ⟨hprogram, hstored⟩ := QuantumSafeManager.copy_eq env hmatched'.1 hplain hcopy
    refine ⟨hprogram.trans (hown o), ?_⟩
    rw [hstored]
    exact hmatched'.leavesStored_le.trans (hsign o)
  cases hend with
  | refused => exact le_rfl
  | advanced n =>
    cases inMemory with
    | false => exact le_rfl
    | true =>
      obtain ⟨⟨href, hbytes⟩, -⟩ := Option.ite_none_right_eq_some.mp hwith.memory
      refine leavesUsed_le fun mgr' hheld _ => ?_
      by_cases hmem : ref' = ⟨false, 0⟩ ∧ w.keyState.program = some program'
      · obtain ⟨rfl, hprogram⟩ := hmem
        obtain rfl := Option.some.inj (hbytes.symm.trans hprogram)
        rw [heldKey_advanced, if_pos ⟨rfl, hprogram⟩] at hheld
        obtain rfl := Option.some.inj hheld
        rw [href] at hused
        right
        rw [hused]
        exact hsign _
      · left
        rw [heldKey_advanced, if_neg hmem] at hheld
        rw [heldKey, if_neg hmem]
        exact hheld
  | unsaved n hlength =>
    by_cases href : ref = ⟨false, 0⟩
    swap
    · simp [keepSigned, href]
    subst href
    obtain ⟨plain, copy, hplain, hcopy⟩ := hmatched.exists_copy sighash _ hlength
    obtain ⟨hprogram, hle⟩ := hcopied _ plain copy hplain hcopy
    refine leavesUsed_le fun mgr' hheld hmgr' => ?_
    rw [heldKey_unsaved (hown _) hplain hcopy] at hheld
    split at hheld
    · rename_i hsame
      obtain rfl := Option.some.inj hheld
      obtain ⟨rfl, hprogram'⟩ := hsame
      obtain rfl := Option.some.inj hprogram'
      right
      rw [hused]
      exact hle
    · rename_i hother
      by_cases hmem : ref' = ⟨false, 0⟩ ∧ w.keyState.program = some program'
      · obtain ⟨rfl, hbytes⟩ := hmem
        refine absurd ⟨rfl, ?_⟩ hother
        cases hwith.source with
        | loads hloads =>
          cases hloads with
          | record packed hread hopen =>
            rw [hread, Option.bind_some, hopen] at hheld
            obtain rfl := Option.some.inj hheld
            exact hwith.own.symm.trans hmgr'
          | derived root o hnone _ =>
            rw [hnone] at hheld
            cases hheld
        | memory program'' _ _ hbytes' hown' =>
          rw [← hwith.own, hown', ← hbytes', hbytes]
      · left
        rw [heldKey, if_neg hmem]
        exact hheld
  | signed n n' packed hlength hpack =>
    obtain ⟨plain, copy, hplain, hcopy⟩ := hmatched.exists_copy sighash _ hlength
    obtain ⟨hprogram, hle⟩ := hcopied _ plain copy hplain hcopy
    refine leavesUsed_le fun mgr' hheld hmgr' => ?_
    rw [heldKey_signed (hmatched.sign sighash _).1 hpack hplain hcopy] at hheld
    split at hheld
    · rename_i href
      subst href
      obtain rfl := Option.some.inj hheld
      obtain rfl := Option.some.inj (hprogram.symm.trans hmgr')
      right
      rw [hused]
      exact hle
    · exact Or.inl hheld

theorem SigningEnds.usesLeaf (hwith : SigningWith env w outputProgram program ref mgr inMemory)
    (hmatched : mgr.Matched env.lib) (hleft : mgr.LeafLeft env.lib)
    (hread : ∀ n, (outcomes n).sign.remainingRead = true)
    (hxmss : ∀ n, (outcomes n).sign.xmss = .succeeds) {signature : QuantumSignature}
    (hend : SigningEnds env w.keyState ref inMemory mgr sighash outcomes (some signature) c') :
    w.keyState.leavesUsed env ref program < c'.leavesUsed env ref program := by
  cases hend with
  | signed n n' packed hlength hpack =>
    obtain ⟨plain, copy, hplain, hcopy⟩ := hmatched.exists_copy sighash _ hlength
    have hsized := (hmatched.sign sighash (outcomes n).sign).1
    obtain ⟨hprogram, hstored⟩ := QuantumSafeManager.copy_eq env hsized hplain hcopy
    have hown := hprogram.trans ((programFromManager_sign mgr sighash _).trans hwith.own)
    calc w.keyState.leavesUsed env ref program
      _ = mgr.leavesUsed env.lib := hwith.leavesUsed
      _ < copy.leavesUsed env.lib := by
        rw [hstored, hleft.leavesStored_sign sighash (hread n) (hxmss n)]
        exact Nat.lt_succ_self _
      _ = _ := (leavesUsed_of_held
        ((heldKey_signed hsized hpack hplain hcopy ref program).trans (if_pos rfl)) hown).symm
end

end Byze
