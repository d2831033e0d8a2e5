import Byze.Wallet.SignSpec

/-! The operations of a wallet take its quantum keys along the steps of a key
state, whatever the outcomes of the calls that they make. -/

namespace Byze
open StateWp

def KeepsKeys {Key : Type} (w w' : World Key) : Prop := w'.keyState = w.keyState

/-- A loaded wallet stays loaded and its keys go along the steps. -/
def Moves {Key : Type} (env : WalletEnv Key) (master : Uint256) (signs : Uint256 → Prop)
    (w w' : World Key) : Prop :=
  w.wallet.loaded = true → w'.wallet.loaded = true ∧ KeySteps env master signs w.keyState w'.keyState

section
variable {Key : Type} {env : WalletEnv Key} {master : Uint256} {signs : Uint256 → Prop} {w w' : World Key}
  {c c' : KeyState Key}

theorem KeyStep.steps (h : KeyStep env master c c') : KeySteps env master signs c c' :=
  Relation.ReflTransGen.single (Or.inl h)

theorem SignStep.steps {program : Uint256} (h : SignStep env program c c') (hp : signs program) :
    KeySteps env master signs c c' :=
  Relation.ReflTransGen.single (Or.inr ⟨program, hp, h⟩)

instance : Std.Refl (@KeepsKeys Key) := ⟨fun _ => rfl⟩

instance : IsTrans (World Key) KeepsKeys := ⟨fun _ _ _ h h' => Eq.trans h' h⟩

instance : Std.Refl (Moves env master signs) := ⟨fun _ hl => ⟨hl, .refl⟩⟩

instance : IsTrans (World Key) (Moves env master signs) :=
  ⟨fun _ _ _ h h' hl => ⟨(h' (h hl).1).1, (h hl).2.trans (h' (h hl).1).2⟩⟩

theorem KeepsKeys.loaded (h : KeepsKeys w w') : w'.wallet.loaded = w.wallet.loaded :=
  congrArg KeyState.loaded h

theorem KeepsKeys.moves (h : KeepsKeys w w') : Moves env master signs w w' := by
  refine fun hl => ⟨h.loaded.trans hl, ?_⟩
  rw [show w'.keyState = w.keyState from h]
  exact .refl

theorem Leaves.keysOf (h : KeepsSecrets w w') : KeepsKeys w w' := congrArg Prod.fst h.same

variable {α : Type}

theorem Along.keysOf {p : WalletM Key α} (h : Along KeepsSecrets p) : Along KeepsKeys p :=
  h.mono fun _ _ => Leaves.keysOf

theorem Leaves.keepsKeys (h : Keeps w w') : KeepsKeys w w' := h.keepsSecrets.keysOf

theorem Along.keepsKeys {p : WalletM Key α} (h : Along Keeps p) : Along KeepsKeys p :=
  h.mono fun _ _ => Leaves.keepsKeys

theorem Along.moves {p : WalletM Key α} (h : Along KeepsKeys p) : Along (Moves env master signs) p :=
  h.mono fun _ _ => KeepsKeys.moves

theorem Along.moves_of_keeps {p : WalletM Key α} (h : Along Keeps p) : Along (Moves env master signs) p :=
  Along.moves (Along.keepsKeys h)

theorem nextOutcome_keepsKeys : Along KeepsKeys (nextOutcome : WalletM Key Outcome) := fun _ => rfl

theorem dbWrite_keepsKeys {f : WalletDb → WalletDb} (hf : ∀ db, (f db).quantum = db.quantum) :
    Along KeepsKeys (dbWrite f : WalletM Key Bool) := by
  intro w
  refine wp_dbWrite ?_ rfl rfl
  simp [KeepsKeys, World.keyState, World.modifyDb, hf]

theorem modifyWallet_keepsKeys {f : CWallet Key → CWallet Key}
    (hf : ∀ w : World Key, (w.modifyWallet f).keyState = w.keyState) : Along KeepsKeys (modifyWallet f) :=
  fun w => hf w

abbrev OnKeys {Key : Type} (R : KeyState Key → KeyState Key → Prop) (w w' : World Key) : Prop :=
  R w.keyState w'.keyState

variable {R : KeyState Key → KeyState Key → Prop}

theorem KeepsKeys.onKeys [Std.Refl R] (h : KeepsKeys w w') :
    OnKeys R w w' := by
  rw [OnKeys, show w'.keyState = w.keyState from h]
  exact refl_of R _

theorem KeepsKeys.trans_onKeys {w'' : World Key} (h : KeepsKeys w w') (h' : OnKeys R w' w'') :
    OnKeys R w w'' := by
  rwa [OnKeys, ← show w'.keyState = w.keyState from h]

theorem OnKeys.trans_keepsKeys {w'' : World Key} (h : OnKeys R w w') (h' : KeepsKeys w' w'') :
    OnKeys R w w'' := by
  rwa [OnKeys, show w''.keyState = w'.keyState from h']

theorem Along.keepsKeys_bind {α β : Type} [Std.Refl R] {p : WalletM Key α} {f : α → WalletM Key β}
    (hp : Along KeepsKeys p) (hf : ∀ a, Along (OnKeys R) (f a)) : Along (OnKeys R) (p >>= f) :=
  hp.bind_comp hf (fun _ _ h => h.onKeys) fun _ _ _ h h' => h.trans_onKeys h'

theorem Along.bind_keepsKeys {α β : Type} {p : WalletM Key α} {f : α → WalletM Key β}
    (hp : Along (OnKeys R) p) (hf : ∀ a, Along KeepsKeys (f a)) : Along (OnKeys R) (p >>= f) :=
  hp.bind_comp hf (fun _ _ h => h) fun _ _ _ h h' => OnKeys.trans_keepsKeys h h'

@[simp] theorem KeyState.write_nil (c : KeyState Key) (packed : Bytes) : c.write [] packed = c := by
  simp [KeyState.write]

theorem World.keyState_writeQuantum (w : World Key) (key : QuantumDbKey) (packed : Bytes) :
    (w.modifyDb (WalletDb.writeQuantum key packed)).keyState = w.keyState.write [key] packed := by
  have hrecord : Function.update w.db.quantum key (some packed) =
      fun key' => if key' ∈ [key] then some packed else w.db.quantum key' := by
    funext key'
    by_cases hkey : key' = key
    · simp [hkey]
    · simp [hkey]
  simp [World.keyState, World.modifyDb, WalletDb.writeQuantum, KeyState.write, hrecord]

theorem KeyState.write_write (c : KeyState Key) (keys : List QuantumDbKey) (key : QuantumDbKey)
    (packed : Bytes) : (c.write keys packed).write [key] packed = c.write (keys ++ [key]) packed := by
  simp only [KeyState.write, KeyState.mk.injEq, and_true]
  funext key'
  by_cases hkey : key' = key
  · simp [hkey]
  · simp [hkey]

def Wrote (keys : List QuantumDbKey) (packed : Bytes) (w w' : World Key) : Prop :=
  w'.wallet = w.wallet ∧ w'.keyState = w.keyState.write keys packed

theorem wp_writeQuantum {keys : List QuantumDbKey} {packed : Bytes} (hw : Wrote keys packed w w')
    (key : QuantumDbKey) :
    wp (dbWrite (WalletDb.writeQuantum key packed))
      (fun ok t => if ok then Wrote (keys ++ [key]) packed w t else Wrote keys packed w t)
      (fun _ => Wrote keys packed w) w' := by
  refine wp_dbWrite ⟨hw.1, ?_⟩ hw hw
  refine (World.keyState_writeQuantum w'.tail key packed).trans ?_
  rw [show World.keyState w'.tail = w'.keyState from rfl, hw.2, KeyState.write_write]

theorem wrote_nil (packed : Bytes) (w : World Key) : Wrote [] packed w w :=
  ⟨rfl, (KeyState.write_nil _ packed).symm⟩

theorem persistQuantumKeyPacked_wrote (ref : QuantumKeyRef) (enc : Bool) (origin : UInt8)
    (program : Uint256) (payload : Bytes) :
    wp (persistQuantumKeyPacked ref enc origin program payload)
      (fun ok t => ∃ keys, keys <+: ref.dbKeys ∧ (ok = true → keys = ref.dbKeys) ∧
        Wrote keys (packQuantumDbRecordV2 enc origin program payload) w t)
      (fun _ t => ∃ keys, keys <+: ref.dbKeys ∧
        Wrote keys (packQuantumDbRecordV2 enc origin program payload) w t) w := by
  rw [persistQuantumKeyPacked]
  generalize packQuantumDbRecordV2 enc origin program payload = packed
  have hnil := wrote_nil packed w
  obtain ⟨change, index⟩ := ref
  cases change with
  | true =>
    refine wp_mono (wp_writeQuantum hnil _) ?_ fun _ t h => ⟨[], List.nil_prefix, h⟩
    rintro (_ | _) t h
    · exact ⟨[], List.nil_prefix, by simp, h⟩
    · exact ⟨_, List.prefix_rfl, fun _ => rfl, h⟩
  | false =>
    rw [if_neg (by simp), persistQuantumManagerPacked, wp_bind]
    refine wp_mono (wp_writeQuantum hnil _) ?_ fun _ t h => ⟨[], List.nil_prefix, h⟩
    rintro (_ | _) t h
    · exact ⟨[], List.nil_prefix, by simp, h⟩
    rw [if_pos rfl] at h ⊢
    refine wp_ite (fun h0 => ?_) fun h0 => ?_
    · subst h0
      refine wp_mono (wp_writeQuantum h _) ?_ fun _ t' h' => ⟨[.indexState 0], ⟨[.state], rfl⟩, h'⟩
      rintro (_ | _) t' h'
      · exact ⟨[.indexState 0], ⟨[.state], rfl⟩, by simp, h'⟩
      · exact ⟨_, List.prefix_rfl, fun _ => rfl, h'⟩
    · have hkeys : QuantumKeyRef.dbKeys ⟨false, index⟩ = [.indexState index] := by
        simp [QuantumKeyRef.dbKeys, show ¬ index = 0 from h0]
      refine ⟨[.indexState index], ?_, fun _ => hkeys.symm, h⟩
      rw [hkeys]

theorem KeyStep.moves (h : KeyStep env master w.keyState w'.keyState)
    (hl : w'.wallet.loaded = w.wallet.loaded) : Moves env master signs w w' :=
  fun hw => ⟨hl.trans hw, h.steps⟩

variable {mgr : QuantumSafeManager Key}

theorem World.keyState_pack {plain payload : Bytes} {program : Uint256}
    (hplain : mgr.serializeDualKeys = some plain) (hpayload : sealPayload env w.wallet plain = some payload)
    (hprogram : programFromManager env mgr = some program) (origin : UInt8) :
    w.keyState.pack env origin mgr =
      some (packQuantumDbRecordV2 w.wallet.encrypting origin program payload) := by
  rw [KeyState.pack, hplain, hprogram]
  exact congrArg (Option.bind · _) hpayload

theorem persistQuantumManagerForKey_moves {ref : QuantumKeyRef}
    (hl : w.wallet.loaded = true) (hloads : w.keyState.Loads env ref mgr) :
    wp (persistQuantumManagerForKey env ref mgr) (fun _ => Moves env master signs w)
      (fun _ => Moves env master signs w) w := by
  rw [persistQuantumManagerForKey, wp_bind, wp_get]
  cases hplain : mgr.serializeDualKeys with
  | none => exact refl_of (Moves env master signs) w
  | some plain =>
    dsimp only
    cases hpayload : sealPayload env w.wallet plain with
    | none => exact refl_of (Moves env master signs) w
    | some payload =>
      cases hprogram : programFromManager env mgr with
      | none => exact refl_of (Moves env master signs) w
      | some program =>
        have hpack := World.keyState_pack hplain hpayload hprogram w.wallet.quantumKeyOrigin
        have hstep : ∀ (keys : List QuantumDbKey) (t : World Key), keys <+: ref.dbKeys →
            Wrote keys (packQuantumDbRecordV2 w.wallet.encrypting w.wallet.quantumKeyOrigin program
              payload) w t → Moves env master signs w t := by
          intro keys t hkeys ht
          refine KeyStep.moves ?_ (congrArg CWallet.loaded ht.1)
          rw [ht.2]
          exact .store _ ref mgr _ keys _ hl hloads hpack hkeys (Or.inl rfl)
        rw [wp_bind]
        refine wp_mono (persistQuantumKeyPacked_wrote ref _ _ _ _) ?_ ?_
        · rintro ok t ⟨keys, hkeys, -, ht⟩
          refine wp_ite (fun _ => ?_) fun _ => hstep keys t hkeys ht
          have hloaded := congrArg CWallet.loaded ht.1
          refine KeyStep.moves ?_ ?_
          · by_cases h0 : ref.change = false ∧ ref.index = 0
            · have href : ref = ⟨false, 0⟩ := by
                obtain ⟨change, index⟩ := ref
                simpa using h0
              have hstore : KeyStep env master w.keyState _ :=
                .store _ ref mgr _ keys (some program) hl hloads hpack hkeys (Or.inr ⟨href, hprogram.symm⟩)
              convert hstore using 1
              rw [← ht.2]
              simp [World.keyState, World.modifyWallet, h0, CWallet.isCrypted]
            · have hstore : KeyStep env master w.keyState _ :=
                .store _ ref mgr _ keys _ hl hloads hpack hkeys (Or.inl rfl)
              convert hstore using 1
              refine Eq.trans ?_ ht.2
              simp only [World.modifyWallet]
              split
              · rfl
              · rw [if_neg (fun h => h0 ⟨by simpa using ‹¬ ref.change = true›, h⟩)]
          · split
            · exact hloaded
            · split <;> exact hloaded
        · rintro _ t ⟨keys, hkeys, ht⟩
          exact hstep keys t hkeys ht

theorem loadQuantumManagerForKey_loads (ref : QuantumKeyRef) : wp (loadQuantumManagerForKey env ref)
      (fun r w' => w'.keyState = w.keyState ∧ ∀ mgr, r = some mgr → w.keyState.Loads env ref mgr)
      (fun _ _ => False) w := by
  refine wp.imp (loadQuantumManagerForKey_eq ref) ?_
  rintro r _ ⟨hr, k, -, rfl⟩
  refine ⟨rfl, fun mgr hmgr => ?_⟩
  rw [hmgr, storedOrDerivedKey] at hr
  cases hread : ref.dbKeys.findSome? w.db.readQuantum with
  | some packed =>
    rw [hread] at hr
    exact .record packed hread hr.symm
  | none =>
    rw [hread] at hr
    obtain ⟨root, -, hder⟩ := Option.bind_eq_some_iff.mp hr.symm
    exact .derived root _ hread hder

theorem moves_recordSteps : RecordSteps env (Moves env master signs) where
  aside _ _ h := KeepsKeys.moves (congrArg Prod.fst h.same)
  store ref w := by
    rw [wp_bind]
    refine wp_mono (loadQuantumManagerForKey_loads ref) ?_ fun _ _ h => h.elim
    rintro r t ⟨ht, hr⟩
    have hmove : Moves env master signs w t := KeepsKeys.moves ht
    cases r with
    | none => exact hmove
    | some mgr =>
      by_cases hl : w.wallet.loaded = true
      · have hloads := ht ▸ hr mgr rfl
        exact wp_mono (persistQuantumManagerForKey_moves (hmove hl).1 hloads)
          (fun _ _ => trans_of (Moves env master signs) hmove) fun _ _ => trans_of (Moves env master signs) hmove
      · exact wp_trivial (fun _ _ h => absurd h hl) fun _ _ h => absurd h hl

/-- The state that new keys from a root leave, when some of the records and the
memory have been written. -/
inductive FromRoot (env : WalletEnv Key) (root : CExtKey) (overwriteExisting : Bool)
    (c : KeyState Key) : KeyState Key → Prop
  | same : FromRoot env root overwriteExisting c c
  | wrote (o : KeygenOutcome) (mgr : QuantumSafeManager Key) (program : Uint256) (packed : Bytes)
      (keys : List QuantumDbKey) (taken : Bool)
      (hwhy : overwriteExisting = true ∨ c.read .state = none)
      (hder : derivedKey env root ⟨false, 0⟩ o = some mgr)
      (hown : programFromManager env mgr = some program)
      (hpack : c.pack env quantumOriginHdMaster mgr = some packed)
      (hkeys : keys <+: [.state, .indexState 0]) :
      FromRoot env root overwriteExisting c ((c.write keys packed).refresh taken program mgr)

instance (root : CExtKey) (overwriteExisting : Bool) :
    Std.Refl (FromRoot env root overwriteExisting) := ⟨fun _ => .same⟩

variable {root : CExtKey} {overwriteExisting : Bool}

theorem FromRoot.loaded {c c' : KeyState Key} (h : FromRoot env root overwriteExisting c c') :
    c'.loaded = c.loaded := by
  cases h with
  | same => rfl
  | wrote o mgr program packed keys taken => cases taken <;> rfl

theorem FromRoot.restore {c c' : KeyState Key} (h : FromRoot env root overwriteExisting c c') :
    FromRoot env root overwriteExisting c { c' with record := c.record } := by
  cases h with
  | same => exact .same
  | wrote o mgr program packed keys taken hwhy hder hown hpack hkeys =>
    have hundone := FromRoot.wrote o mgr program packed [] taken hwhy hder hown hpack List.nil_prefix
    convert hundone using 1
    cases taken <;> rfl

/-- What is stored when new keys from a root are reported: they fill both
records of receive index 0, unless one was there and is not to be overwritten. -/
inductive StoredFromRoot (env : WalletEnv Key) (overwriteExisting : Bool) (c c' : KeyState Key) : Prop
  | kept (hread : c.read .state ≠ none) (hrecord : c'.record = c.record)
  | wrote (mgr : QuantumSafeManager Key) (packed : Bytes)
      (hwhy : overwriteExisting = true ∨ c.read .state = none)
      (hpack : c.pack env quantumOriginHdMaster mgr = some packed)
      (hrecord : c'.record = (c.write [.state, .indexState 0] packed).record)

theorem persistQuantumKeyMaterialFromHdMaster_spec (root : CExtKey) (overwriteExisting : Bool) :
    wp (persistQuantumKeyMaterialFromHdMaster env root overwriteExisting)
      (fun ok t => FromRoot env root overwriteExisting w.keyState t.keyState ∧
        (ok = true → StoredFromRoot env overwriteExisting w.keyState t.keyState))
      (fun _ t => FromRoot env root overwriteExisting w.keyState t.keyState) w := by
  refine wp_ite (fun hread => ⟨.same, fun _ => .kept ?_ rfl⟩) fun hread => ?_
  · simp only [Bool.and_eq_true, Option.isSome_iff_ne_none] at hread
    exact hread.2
  have hwhy : overwriteExisting = true ∨ w.keyState.read .state = none := by
    cases overwriteExisting with
    | true => exact Or.inl rfl
    | false =>
      right
      change w.db.readQuantum .state = none
      simpa using hread
  rw [wp_bind, deriveQuantumManagerForKey, wp_bind, wp_nextOutcome, wp_pure]
  cases hder : derivedKey env root ⟨false, 0⟩ (w.outcomes 0).keygen with
  | none =>
    rw [derivedKey] at hder
    rw [hder]
    exact ⟨.same, by simp⟩
  | some mgr =>
    have hder' := hder
    rw [derivedKey] at hder'
    rw [hder']
    dsimp only
    cases hown : programFromManager env mgr with
    | none => exact ⟨.same, by simp⟩
    | some program =>
      cases hplain : mgr.serializeDualKeys with
      | none => exact ⟨.same, by simp⟩
      | some plain =>
        dsimp only
        cases hpayload : sealPayload env w.wallet plain with
        | none => exact ⟨.same, by simp⟩
        | some payload =>
          have hpack := World.keyState_pack hplain hpayload hown quantumOriginHdMaster
          dsimp only
          generalize packQuantumDbRecordV2 w.wallet.encrypting quantumOriginHdMaster program payload =
            packed at hpack ⊢
          have hpart : ∀ (keys : List QuantumDbKey) (t : World Key), keys <+: [.state, .indexState 0] →
              Wrote keys packed w t → FromRoot env root overwriteExisting w.keyState t.keyState := by
            intro keys t hkeys ht
            rw [ht.2]
            exact .wrote _ mgr program packed keys false hwhy hder hown hpack hkeys
          have hnil : Wrote [] packed w w.tail :=
            wrote_nil packed w
          rw [wp_bind]
          refine wp_mono (wp_writeQuantum hnil .state) ?_ fun _ t ht => hpart [] t List.nil_prefix ht
          rintro (_ | _) t ht
          · exact ⟨hpart [] t List.nil_prefix ht, by simp⟩
          rw [if_pos rfl] at ht ⊢
          rw [wp_bind]
          refine wp_mono (wp_writeQuantum ht (.indexState 0)) ?_ fun _ t ht =>
            hpart [.state] t ⟨[.indexState 0], rfl⟩ ht
          rintro (_ | _) t ht
          · exact ⟨hpart [.state] t ⟨[.indexState 0], rfl⟩ ht, by simp⟩
          have hrecord : t.keyState = w.keyState.write [.state, .indexState 0] packed := ht.2
          have hclone : cloneQuantumManager mgr = QuantumSafeManager.deserializeDualKeys plain := by
            simp [cloneQuantumManager, hplain]
          have hfull : FromRoot env root overwriteExisting w.keyState _ :=
            .wrote _ mgr program packed [.state, .indexState 0] true hwhy hder hown hpack List.prefix_rfl
          have hboth := congrArg KeyState.record hrecord
          refine ⟨?_, fun _ => .wrote mgr packed hwhy hpack hboth⟩
          convert hfull using 1
          rw [KeyState.refresh, if_pos rfl, hclone, ← hrecord]
          rfl

theorem persistQuantumKeyMaterialFromHdMaster_fromRoot (root : CExtKey) (overwriteExisting : Bool) :
    Along (OnKeys (FromRoot env root overwriteExisting))
      (persistQuantumKeyMaterialFromHdMaster env root overwriteExisting) :=
  fun _ => wp_mono (persistQuantumKeyMaterialFromHdMaster_spec root overwriteExisting)
    (fun _ _ h => h.1) fun _ _ h => h

theorem derivedKey_outcome {ref : QuantumKeyRef} {o : KeygenOutcome} {mgr : QuantumSafeManager Key}
    (h : derivedKey env root ref o = some mgr) :
    o = ⟨.succeeds, .succeeds⟩ := by
  obtain ⟨hok, -⟩ := Option.ite_none_right_eq_some.mp h
  obtain ⟨hx, hs⟩ := (QuantumSafeManager.generate_fst _ _ _ _ _).mp hok
  obtain ⟨xmss, sphincs⟩ := o
  simp only [KeygenOutcome.mk.injEq]
  exact ⟨hx, hs⟩

/-- The upgrade to keys from the root: nothing, or the root derives the program
that the wallet has and its fresh key is written. -/
inductive Upgraded (env : WalletEnv Key) (w w' : World Key) : Prop
  | same (h : KeepsKeys w w')
  | fromRoot (root : CExtKey) (mgr : QuantumSafeManager Key) (program : Uint256)
      (horigin : w.wallet.quantumKeyOrigin ≠ quantumOriginHdMaster)
      (hprogram : w.wallet.quantumProgramBytes = some program)
      (hroot : tryGetTaprootDescriptorRootExtKey env w.wallet = some root)
      (hder : derivedKey env root ⟨false, 0⟩ (w.outcomes 0).keygen = some mgr)
      (hown : programFromManager env mgr = some program)
      (h : FromRoot env root true w.keyState w'.keyState)

theorem maybeUpgradeQuantumStateToHdOrigin_upgraded :
    Along (Upgraded env) (maybeUpgradeQuantumStateToHdOrigin env) := by
  intro w
  refine wp_ite (fun _ => .same rfl) fun horigin => ?_
  cases hprogram : w.wallet.quantumProgramBytes with
  | none => exact .same rfl
  | some programBytes =>
    cases hroot : tryGetTaprootDescriptorRootExtKey env w.wallet with
    | none => exact .same rfl
    | some root =>
      simp only [deriveQuantumProgramForKey, deriveQuantumManagerForKey, wp_bind, wp_nextOutcome, wp_pure]
      cases hder : (derivedKey env root ⟨false, 0⟩ (w.outcomes 0).keygen).bind (programFromManager env) with
      | none =>
        rw [derivedKey] at hder
        rw [hder]
        exact .same rfl
      | some derived =>
        have hder' := hder
        rw [derivedKey] at hder'
        rw [hder']
        refine wp_ite (fun _ => .same rfl) fun heq => ?_
        obtain rfl := not_not.mp heq
        obtain ⟨mgr, hmgr, hown⟩ := Option.bind_eq_some_iff.mp hder
        exact wp_mono (persistQuantumKeyMaterialFromHdMaster_fromRoot root true _)
          (fun _ t ht => .fromRoot root mgr derived horigin hprogram hroot hmgr hown ht)
          fun _ t ht => .fromRoot root mgr derived horigin hprogram hroot hmgr hown ht

theorem Upgraded.moves (h : Upgraded env w w') : Moves env master signs w w' := by
  cases h with
  | same h => exact KeepsKeys.moves h
  | fromRoot root mgr program horigin hprogram _ hmgr hown ht =>
    intro hl
    refine ⟨ht.loaded.trans hl, ?_⟩
    generalize w'.keyState = c' at ht
    cases ht with
    | same => exact .refl
    | wrote o mgr' program' packed keys taken _ hder' hown' hpack hkeys =>
      rw [derivedKey_outcome hmgr, ← derivedKey_outcome hder', hder'] at hmgr
      obtain rfl := Option.some.inj hmgr
      refine (KeyStep.fromRoot _ root o mgr' program' packed keys taken (Or.inr ⟨horigin, ?_⟩) hder'
        hown' hpack hkeys).steps
      exact hprogram.trans (hown.symm.trans hown')

theorem maybeUpgradeQuantumStateToHdOrigin_moves :
    Along (Moves env master signs) (maybeUpgradeQuantumStateToHdOrigin env) :=
  maybeUpgradeQuantumStateToHdOrigin_upgraded.mono fun _ _ h => h.moves

theorem upgradeIfPlain_moves : Along (Moves env master signs) (upgradeIfPlain env) :=
  Along.get.bind fun _ => .ite maybeUpgradeQuantumStateToHdOrigin_moves (.pure _)

theorem runWithinTxn_restores {R : KeyState Key → KeyState Key → Prop} [Std.Refl R]
    {func : WalletM Key Bool} (hrestore : ∀ c c', R c c' → R c { c' with record := c.record })
    (hfunc : Along (OnKeys R) func) : Along (OnKeys R) (runWithinTxn func) := by
  have hid : Along KeepsKeys (dbWrite id : WalletM Key Bool) := dbWrite_keepsKeys fun _ => rfl
  refine Along.keepsKeys_bind hid fun _ => .ite (restoringDb_along ?_ ?_) (.pure _)
  · exact fun s t h => hrestore _ _ h
  · exact Along.bind_keepsKeys hfunc fun _ => .ite hid (.pure _)

theorem runWithinTxn_fromRoot {func : WalletM Key Bool}
    (hfunc : Along (OnKeys (FromRoot env root overwriteExisting)) func) :
    Along (OnKeys (FromRoot env root overwriteExisting)) (runWithinTxn func) :=
  runWithinTxn_restores (fun _ _ h => h.restore) hfunc

theorem FromRoot.moves (h : FromRoot env root false w.keyState w'.keyState)
    (hprogram : w.wallet.quantumProgramBytes = none) : Moves env master signs w w' := by
  intro hl
  refine ⟨h.loaded.trans hl, ?_⟩
  generalize w'.keyState = c' at h
  cases h with
  | same => exact .refl
  | wrote o mgr program packed keys taken hwhy hder hown hpack hkeys =>
    have hread := hwhy.resolve_left (by simp)
    exact (KeyStep.fromRoot _ root o mgr program packed keys taken (Or.inl ⟨hread, hprogram⟩) hder hown
      hpack hkeys).steps

theorem ensureQuantumKeysForReceive_moves : Along (Moves env master signs) (ensureQuantumKeysForReceive env) := by
  intro w
  refine wp_ite (fun _ => refl_of (Moves env master signs) w) fun hprogram => ?_
  have hprogram' : w.wallet.quantumProgramBytes = none := by simpa using hprogram
  refine wp_ite (fun _ => refl_of (Moves env master signs) w) fun _ => ?_
  cases tryGetTaprootDescriptorRootExtKey env w.wallet with
  | none => exact refl_of (Moves env master signs) w
  | some root =>
    rw [wp_bind]
    refine (runWithinTxn_fromRoot (persistQuantumKeyMaterialFromHdMaster_fromRoot root false)).wp_of ?_
      fun _ t ht => ht.moves hprogram'
    intro ok t ht
    exact wp_ite (fun _ => ht.moves hprogram') fun _ => ht.moves hprogram'
end

theorem moves_addressSteps {Key : Type} {env : WalletEnv Key} {master : Uint256} {signs : Uint256 → Prop} :
    AddressSteps env (Moves env master signs) where
  secrets _ _ h := h.keysOf.moves
  ensureState := ensureQuantumStateForSpkmIndex_along moves_recordSteps
  ensureReceive := ensureQuantumKeysForReceive_moves

section
variable {Key : Type} {env : WalletEnv Key} {master : Uint256} {signs : Uint256 → Prop}

theorem setupDescriptorScriptPubKeyMansFrom_fromRoot (root : CExtKey) :
    Along (OnKeys (FromRoot env root false)) (setupDescriptorScriptPubKeyMansFrom env root) := by
  intro w
  refine wp_setupDescriptorScriptPubKeyMansFrom (fun _ _ h => h.keysOf.onKeys) fun t ht _ => ?_
  refine (persistQuantumKeyMaterialFromHdMaster_fromRoot root false).wp_of (fun ok u hu v hv => ?_)
    fun _ u hu => ht.keysOf.trans_onKeys hu
  have hroot := OnKeys.trans_keepsKeys (ht.keysOf.trans_onKeys hu) hv.keysOf
  exact ⟨fun _ => hroot, fun _ => hroot⟩

theorem persistWalletMnemonic_keepsKeys (mnemonic : Bytes) :
    Along KeepsKeys (persistWalletMnemonic env mnemonic) := by
  refine Along.get.bind fun w => ?_
  dsimp only
  generalize (if w.wallet.encrypting then
    env.crypter.encryptSecret w.wallet.vMasterKey mnemonic (mnemonicWalletIv env) else some mnemonic) =
      payload
  cases payload with
  | none => exact .pure _
  | some payload =>
    refine .bind (dbWrite_keepsKeys fun _ => rfl) fun _ => .ite ?_ (.pure _)
    exact .bind (modifyWallet_keepsKeys fun _ => rfl) fun _ => .pure _

def SetUp (env : WalletEnv Key) (c c' : KeyState Key) : Prop :=
  c' = c ∨ c.program = none ∧ ∃ root, FromRoot env root false c c'

instance : Std.Refl (SetUp env) := ⟨fun _ => Or.inl rfl⟩

theorem SetUp.restore {c c' : KeyState Key} (h : SetUp env c c') :
    SetUp env c { c' with record := c.record } := by
  rcases h with rfl | ⟨hprogram, root, h⟩
  · exact Or.inl rfl
  · exact Or.inr ⟨hprogram, root, h.restore⟩

theorem SetUp.moves {w w' : World Key} (h : SetUp env w.keyState w'.keyState) :
    Moves env master signs w w' := by
  rcases h with h | ⟨hprogram, root, h⟩
  · exact KeepsKeys.moves h
  · exact h.moves hprogram

theorem setupDescriptorScriptPubKeyMansFromEntropy_setUp (entropy : Uint256) : Along (OnKeys (SetUp env))
      (setupDescriptorScriptPubKeyMansFromEntropy env entropy) := by
  intro w
  refine wp_ite (fun _ => wp_ite (fun _ => Or.inl rfl) fun _ => Or.inl rfl) fun _ => ?_
  refine wp_ite (fun _ => Or.inl rfl) fun hnew => ?_
  have hprogram : w.wallet.quantumProgramBytes = none := by
    simp only [Bool.or_eq_true, not_or, Bool.not_eq_true, Option.isSome_eq_false_iff,
      Option.isNone_iff_eq_none] at hnew
    exact hnew.2
  cases env.masterExtKeyFromEntropy entropy with
  | none => exact Or.inl rfl
  | some root =>
    have hall : Along (OnKeys (FromRoot env root false)) (do
        setupDescriptorScriptPubKeyMansFrom env root
        if ← persistWalletMnemonic env (env.encodeMnemonic entropy) then pure ⟨⟩
        else throw (.exception
          "SetupDescriptorScriptPubKeyMansFromEntropy: failed to persist BIP39 recovery phrase") :
            WalletM Key PUnit) :=
      Along.bind_keepsKeys (setupDescriptorScriptPubKeyMansFrom_fromRoot root) fun _ =>
        (persistWalletMnemonic_keepsKeys _).bind fun _ => .ite (.pure _) (.throw _)
    exact wp_mono (hall w) (fun _ t h => Or.inr ⟨hprogram, root, h⟩)
      fun _ t h => Or.inr ⟨hprogram, root, h⟩

theorem setupFromEntropy_moves (entropy : Uint256) :
    Along (Moves env master signs) (setupFromEntropy env entropy) := by
  have hfunc : Along (OnKeys (SetUp env)) (do
      setupDescriptorScriptPubKeyMansFromEntropy env entropy
      pure true) :=
    Along.bind_keepsKeys (setupDescriptorScriptPubKeyMansFromEntropy_setUp entropy) fun _ =>
      .pure true
  have htxn := runWithinTxn_restores (fun _ _ h => h.restore) hfunc
  exact htxn.mono fun _ _ h => h.moves

theorem setupDescriptorScriptPubKeyMans_moves :
    Along (Moves env master signs) (setupDescriptorScriptPubKeyMans env) :=
  (Along.moves nextOutcome_keepsKeys).bind fun _ => (setupFromEntropy_moves _).bind fun _ =>
    .ite (.pure _) (.throw _)
end

end Byze
