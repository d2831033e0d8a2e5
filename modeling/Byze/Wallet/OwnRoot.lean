import Mathlib
import Byze.Wallet.HandOut

/-! Receive addresses over the runs of a wallet whose receive descriptor changes:
an address is the one that the root of the active descriptor derives exactly when
no key of another root is stored for its index. -/

namespace Byze
open StateWp

structure HandOut (Key : Type) where
  before : World Key
  op : WalletOp
  descriptor : Descriptor
  index : Nat
  program : Uint256

section
variable {Key : Type} (env : WalletEnv Key)

def receiveOp : WalletOp → Option (WalletM Key (Except String Uint256))
  | .newAddress false => some (getNewAddress env false)
  | .newDestination false => some (getNewDestination env false)
  | _ => none

def handOut (w : World Key) (e : WalletEvent) : Option (HandOut Key) :=
  if w.wallet.loaded then
    (receiveOp env e.op).bind fun c =>
      (w.wallet.getScriptPubKeyMan false).bind fun spkm =>
        match (c.run { w with outcomes := e.outcomes }).1 with
        | .ok (.ok program) =>
          some ⟨w, e.op, spkm.walletDescriptor.descriptor, spkm.walletDescriptor.nextIndex.toNat, program⟩
        | _ => none
  else none

def handOuts (w : World Key) : List WalletEvent → List (HandOut Key)
  | [] => []
  | e :: es => (handOut env w e).toList ++ handOuts (walletStep env w e) es

/-- The state before has no key of another root stored for the index. Making the
wallet's first key writes over one that is stored for index 0. -/
def HandOut.Fits (root : CExtKey) (h : HandOut Key) : Prop :=
  (∀ program, readCachedQuantumProgram h.before.db ⟨false, h.index⟩ = some program →
    program = derivedProgram env root ⟨false, h.index⟩) ∨
  h.op = .newAddress false ∧ h.index = 0 ∧ h.before.wallet.quantumProgramBytes = none

variable {env} {w w' : World Key} {spkm : DescriptorScriptPubKeyMan}

theorem refAt_of_external (h : w.wallet.getScriptPubKeyMan false = some spkm) (index : Int) :
    w.refAt spkm.getID index = ⟨false, index.toNat⟩ := by
  have hext := (CWallet.findSpkm_of_getScriptPubKeyMan h).1
  have hint := w.wallet.active_apart _ hext
  simp [World.refAt, World.changeBase, hint]

theorem KeepsRest.getScriptPubKeyMan (h : KeepsRest w w') (internal : Bool) :
    w'.wallet.getScriptPubKeyMan internal = w.wallet.getScriptPubKeyMan internal := by
  have hspkms : w'.wallet.spkManagers = w.wallet.spkManagers := congrArg (fun r => r.2.spkManagers) h.same
  have hext : w'.wallet.externalSpkManager = w.wallet.externalSpkManager :=
    congrArg (fun r => r.2.externalSpkManager) h.same
  have hint : w'.wallet.internalSpkManager = w.wallet.internalSpkManager :=
    congrArg (fun r => r.2.internalSpkManager) h.same
  have hfind : w'.wallet.findSpkm = w.wallet.findSpkm := by
    funext id
    simp [CWallet.findSpkm, hspkms]
  simp [CWallet.getScriptPubKeyMan, hext, hint, hfind]

theorem KeepsRest.tryGetTaprootDescriptorRootExtKey (h : KeepsRest w w') :
    tryGetTaprootDescriptorRootExtKey env w'.wallet =
      tryGetTaprootDescriptorRootExtKey env w.wallet := by
  have hmap : w'.wallet.mapMasterKeys = w.wallet.mapMasterKeys := congrArg (fun r => r.2.mapMasterKeys) h.same
  have hkey : w'.wallet.vMasterKey = w.wallet.vMasterKey := congrArg (fun r => r.2.vMasterKey) h.same
  simp only [Byze.tryGetTaprootDescriptorRootExtKey, h.getScriptPubKeyMan]
  exact Option.bind_congr fun spkm _ => exportTaprootDescriptorRootExtKey_congr hmap hkey rfl

theorem root_of_tryGet {root root' : CExtKey} (hs : w.wallet.getScriptPubKeyMan false = some spkm)
    (hr : spkm.walletDescriptor.descriptor.RootIs root)
    (ht : tryGetTaprootDescriptorRootExtKey env w.wallet = some root') : root' = root := by
  rw [tryGetTaprootDescriptorRootExtKey, hs, Option.bind_some, exportTaprootDescriptorRootExtKey] at ht
  split at ht
  · cases ht
  split at ht
  · cases ht
  exact hr _ _ ht

variable {root : CExtKey}

theorem ProgramAt.own_iff {ref : QuantumKeyRef} {program : Uint256}
    (h : ProgramAt env w ref program) (hs : w.wallet.getScriptPubKeyMan false = some spkm)
    (hr : spkm.walletDescriptor.descriptor.RootIs root) :
    program = derivedProgram env root ref ↔
      ∀ p, readCachedQuantumProgram w.db ref = some p → p = derivedProgram env root ref := by
  rcases h with hcached | ⟨hnone, root', ht, rfl⟩
  · rw [hcached]
    simp
  · rw [hnone, root_of_tryGet hs hr ht]
    simp

theorem getNewAddress_handsOut : wp (getNewAddress env false)
      (fun r _ => ∀ program, r = .ok program → ∃ spkm, w.wallet.getScriptPubKeyMan false = some spkm ∧
        (ProgramAt env w ⟨false, spkm.walletDescriptor.nextIndex.toNat⟩ program ∧
            (spkm.walletDescriptor.nextIndex.toNat = 0 → w.wallet.quantumProgramBytes.isSome = true) ∨
          spkm.walletDescriptor.nextIndex.toNat = 0 ∧ w.wallet.quantumProgramBytes = none ∧
            ∃ root, tryGetTaprootDescriptorRootExtKey env w.wallet = some root ∧
              program = derivedProgram env root ⟨false, 0⟩))
      (fun _ _ => True) w := by
  refine wp_ite (fun _ => trivial) fun _ => wp_ite (fun _ => trivial) fun _ => ?_
  simp only [wp_bind]
  refine wp_mono (wp_and (ensureQuantumKeysForReceive_keepsRest w)
    (ensureQuantumKeysForReceive_programs)) ?_ fun _ _ _ => trivial
  rintro ok w₁ ⟨hk, hmade⟩
  refine wp_ite (fun hok => ?_) fun _ => trivial
  obtain ⟨hsame, hfirst⟩ := hmade hok
  refine wp_mono (getNewDestination_handsOut false) ?_ fun _ _ _ => trivial
  intro r _ hr program hrp
  obtain ⟨spkm, hs, -, hat⟩ := hr program hrp
  rw [refAt_of_external hs] at hat
  rw [hk.getScriptPubKeyMan] at hs
  refine ⟨spkm, hs, ?_⟩
  cases hp : w.wallet.quantumProgramBytes with
  | some first =>
    refine Or.inl ⟨?_, fun _ => rfl⟩
    have hq := hsame (by rw [hp]; rfl)
    simpa only [ProgramAt, readCachedQuantumProgram, WalletDb.readQuantum, hq,
      hk.tryGetTaprootDescriptorRootExtKey] using hat
  | none =>
    obtain ⟨hothers, root, hroot, hcached⟩ := hfirst hp
    by_cases h0 : spkm.walletDescriptor.nextIndex.toNat = 0
    · refine Or.inr ⟨h0, rfl, root, hroot, ?_⟩
      rw [h0] at hat
      rcases hat with hat | ⟨hnone, -⟩
      · rw [hcached] at hat
        exact (Option.some.inj hat).symm
      · rw [hcached] at hnone
        cases hnone
    · refine Or.inl ⟨?_, fun h => absurd h h0⟩
      have hq := hothers _ h0
      simpa only [ProgramAt, readCachedQuantumProgram, WalletDb.readQuantum, hq,
        hk.tryGetTaprootDescriptorRootExtKey, Bool.false_eq_true, if_false] using hat

theorem ProgramAt.fits_iff {program : Uint256} {op : WalletOp}
    (hs : w.wallet.getScriptPubKeyMan false = some spkm)
    (hr : spkm.walletDescriptor.descriptor.RootIs root)
    (h : ProgramAt env w ⟨false, spkm.walletDescriptor.nextIndex.toNat⟩ program)
    (hop : op = .newAddress false → spkm.walletDescriptor.nextIndex.toNat = 0 →
      w.wallet.quantumProgramBytes.isSome = true) :
    program = derivedProgram env root ⟨false, spkm.walletDescriptor.nextIndex.toNat⟩ ↔
      HandOut.Fits env root ⟨w, op, spkm.walletDescriptor.descriptor,
        spkm.walletDescriptor.nextIndex.toNat, program⟩ := by
  rw [h.own_iff hs hr]
  refine ⟨Or.inl, fun hfits => hfits.resolve_right ?_⟩
  rintro ⟨hnew, h0, hnone⟩
  have hsome := hop hnew h0
  rw [show w.wallet.quantumProgramBytes = none from hnone] at hsome
  cases hsome

theorem handOut_own_iff {e : WalletEvent} {h : HandOut Key} (hh : handOut env w e = some h)
    (hr : h.descriptor.RootIs root) :
    h.program = derivedProgram env root ⟨false, h.index⟩ ↔ h.Fits env root := by
  obtain ⟨-, hh⟩ := Option.ite_none_right_eq_some.mp hh
  obtain ⟨c, hc, hh⟩ := Option.bind_eq_some_iff.mp hh
  obtain ⟨spkm, hs, hh⟩ := Option.bind_eq_some_iff.mp hh
  split at hh
  next program hrun =>
    obtain rfl := Option.some.inj hh
    simp only [receiveOp] at hc
    split at hc
    next hop =>
      obtain rfl := Option.some.inj hc
      obtain ⟨-, hp⟩ := getNewAddress_handsOut.exists_of_fst_eq_ok hrun
      obtain ⟨spkm', hs', hp⟩ := hp program rfl
      obtain rfl := Option.some.inj (hs.symm.trans hs')
      rcases hp with ⟨hat, hsome⟩ | ⟨h0, hnone, root', hroot, hprogram⟩
      · exact hat.fits_iff hs hr fun _ => hsome
      · rw [root_of_tryGet hs hr hroot] at hprogram
        refine iff_of_true ?_ (Or.inr ⟨hop, h0, hnone⟩)
        rw [hprogram, h0]
    next hop =>
      obtain rfl := Option.some.inj hc
      obtain ⟨-, hp⟩ := (getNewDestination_handsOut false).exists_of_fst_eq_ok hrun
      obtain ⟨spkm', hs', -, hat⟩ := hp program rfl
      obtain rfl := Option.some.inj (hs.symm.trans hs')
      rw [refAt_of_external hs'] at hat
      exact hat.fits_iff hs hr fun hnew => by simp [hop] at hnew
    next => cases hc
  next => cases hh

theorem exists_of_mem_handOuts {es : List WalletEvent} {h : HandOut Key} (hh : h ∈ handOuts env w es) :
    ∃ w' e, handOut env w' e = some h := by
  induction es generalizing w with
  | nil => cases hh
  | cons e es ih =>
    rcases List.mem_append.mp hh with hh | hh
    · exact ⟨w, e, Option.mem_toList.mp hh⟩
    · exact ih hh

/-- In every run, an address handed out is the one that the root of the active
receive descriptor derives exactly when its index has no key of another root
stored. Where that holds, addresses handed out under roots that derive different
programs are different. -/
theorem handOuts_own_root (w : World Key) (es : List WalletEvent) :
    (∀ h ∈ handOuts env w es, ∀ root, h.descriptor.RootIs root →
      (h.program = derivedProgram env root ⟨false, h.index⟩ ↔ h.Fits env root)) ∧
    ∀ h ∈ handOuts env w es, ∀ h' ∈ handOuts env w es, ∀ root root',
      h.descriptor.RootIs root → h'.descriptor.RootIs root' → h.Fits env root → h'.Fits env root' →
      (∀ i j, derivedProgram env root ⟨false, i⟩ ≠ derivedProgram env root' ⟨false, j⟩) →
      h.program ≠ h'.program := by
  have hown : ∀ h ∈ handOuts env w es, ∀ root, h.descriptor.RootIs root →
      (h.program = derivedProgram env root ⟨false, h.index⟩ ↔ h.Fits env root) := by
    intro h hh root hr
    obtain ⟨w', e, he⟩ := exists_of_mem_handOuts hh
    exact handOut_own_iff he hr
  refine ⟨hown, fun h hh h' hh' root root' hr hr' hf hf' hne heq => hne h.index h'.index ?_⟩
  rw [← (hown h hh root hr).mpr hf, ← (hown h' hh' root' hr').mpr hf', heq]
end

def sampleRoot (tag : UInt8) : CExtKey := ⟨List.replicate 42 0 ++ tag :: List.replicate 31 0, by simp⟩

theorem sampleDescriptor_rootIs (root : CExtKey) (tag : UInt8) : (sampleDescriptor root tag).RootIs root := by
  intro keys root' h
  obtain ⟨-, h⟩ := Option.ite_none_right_eq_some.mp h
  exact (Option.some.inj h).symm

def sampleEvent (op : WalletOp) : WalletEvent := ⟨op, fun _ => .good Uint256.zero⟩

/-- The first address under a second root is the first one of the first root
again. -/
theorem handOuts_second_root_repeats :
    let hs := handOuts sampleWalletEnv (World.new UInt8 1 fun _ => .good Uint256.zero)
      [sampleEvent .setup, sampleEvent (.newAddress false),
        sampleEvent (.importDescriptor ⟨sampleDescriptor (sampleRoot 1) 7, [], 0, 0, 0⟩
          [(sampleRoot 1).key] true false), sampleEvent (.newAddress false)]
    hs.map (fun h => (h.descriptor.id, h.index, h.program)) = [((sampleDescriptor (sampleRoot 0) 0).id, 0,
            derivedProgram sampleWalletEnv (sampleRoot 0) ⟨false, 0⟩),
          ((sampleDescriptor (sampleRoot 1) 7).id, 0,
            derivedProgram sampleWalletEnv (sampleRoot 0) ⟨false, 0⟩)] ∧
      derivedProgram sampleWalletEnv (sampleRoot 1) ⟨false, 0⟩ ≠
        derivedProgram sampleWalletEnv (sampleRoot 0) ⟨false, 0⟩ := by
  decide +kernel

def sampleReceiveWorld : World UInt8 :=
  let desc := sampleDescriptor (sampleRoot 1) 7
  (World.new UInt8 1 fun _ => .good Uint256.zero).modifyWallet fun wallet =>
    { wallet with
      spkManagers := [{ DescriptorScriptPubKeyMan.ofDescriptor ⟨desc, [], 0, 0, 0⟩ with
        mapKeys := [(sampleRoot 1).key] }]
      externalSpkManager := some desc.id
      internalSpkManager := none
      active_apart := nofun }

theorem handOut_fits_of_fresh {Key : Type} {env : WalletEnv Key} {w : World Key} {e : WalletEvent} {h : HandOut Key}
    {d : Descriptor} {i : Nat} (hh : handOut env w e = some h)
    (hs : (w.wallet.getScriptPubKeyMan false).map (fun s => (s.walletDescriptor.descriptor,
      s.walletDescriptor.nextIndex.toNat)) = some (d, i))
    (hfresh : readCachedQuantumProgram w.db ⟨false, i⟩ = none) : h.descriptor = d ∧ ∀ root, h.Fits env root := by
  obtain ⟨spkm, hspkm, hd⟩ := Option.map_eq_some_iff.mp hs
  obtain ⟨rfl, rfl⟩ := Prod.mk.inj hd
  obtain ⟨-, hh⟩ := Option.ite_none_right_eq_some.mp hh
  obtain ⟨c, -, hh⟩ := Option.bind_eq_some_iff.mp hh
  rw [hspkm, Option.bind_some] at hh
  split at hh
  · obtain rfl := Option.some.inj hh
    exact ⟨rfl, fun root => Or.inl (by simp [hfresh])⟩
  · cases hh

/-- A hash of which the byte of `sampleRoot` that tells roots apart is left. -/
def rootHashes : Hashes where
  sha256 b := ⟨(if 106 < b.length then b.getD 106 0 else b.getD 0 0 + b.getD 64 0) :: List.replicate 31 0, rfl⟩
  ripemd160 _ := []
  sha1 _ := []

variable (wordlist : Wordlist)

def rootWalletEnv : WalletEnv UInt8 := sampleEnv rootHashes wordlist

theorem derivedProgram_rootWalletEnv (tag : UInt8) (i : Nat) :
    derivedProgram (rootWalletEnv wordlist) (sampleRoot tag) ⟨false, i⟩ =
      derivedProgram (rootWalletEnv wordlist) (sampleRoot tag) ⟨false, 0⟩ := by
  have hsha : ∀ a b : Bytes, 106 < a.length → rootHashes.sha256 (a ++ b) = rootHashes.sha256 a := by
    intro a b ha
    have hab : 106 < (a ++ b).length := by simp; omega
    simp only [rootHashes, if_pos ha, if_pos hab, List.getD_eq_getElem?_getD, List.getElem?_append_left ha]
    rfl
  have hmac : ∀ rest, hmacSha256 rootHashes quantumHdSalt ((sampleRoot tag).val ++ rest) =
      hmacSha256 rootHashes quantumHdSalt (sampleRoot tag).val := by
    intro rest
    rw [hmacSha256, ← List.append_assoc, hsha _ rest (by simp [quantumHdSalt, (sampleRoot tag).property]), hmacSha256]
  obtain ⟨rest, hrest⟩ : ∃ rest, quantumIkm (sampleRoot tag) ⟨false, i⟩ = (sampleRoot tag).val ++ rest := by
    by_cases hi : i = 0
    · exact ⟨[], by simp [quantumIkm, buildQuantumIkm, hi]⟩
    · exact ⟨_, by simp only [quantumIkm, buildQuantumIkm, if_neg hi]; rfl⟩
  have hseed : xmssSeed rootHashes (quantumIkm (sampleRoot tag) ⟨false, i⟩) =
      xmssSeed rootHashes (quantumIkm (sampleRoot tag) ⟨false, 0⟩) := by
    rw [xmssSeed, hkdfExpand32, hrest, hmac]
    rfl
  have hhashes : (rootWalletEnv wordlist).hashes = rootHashes := rfl
  rw [derivedProgram, xmssKeyOfIkm, hhashes, hseed]
  rfl

def importSecondRoot : WalletEvent := sampleEvent (.importDescriptor ⟨sampleDescriptor (sampleRoot 0) 0, [], 0, 0, 1⟩
  [(sampleRoot 0).key] true false)

def secondRootWorld : World UInt8 :=
  walletRun (rootWalletEnv wordlist) sampleReceiveWorld [sampleEvent (.newDestination false), importSecondRoot]

set_option maxRecDepth 4000 in
theorem secondRootWorld_descriptor : ((secondRootWorld wordlist).wallet.getScriptPubKeyMan false).map (fun s =>
    (s.walletDescriptor.descriptor, s.walletDescriptor.nextIndex.toNat)) = some (sampleDescriptor (sampleRoot 0) 0, 1) := by
  cbv

/-- An address under one root, and then one under another at an index that is not used. -/
theorem handOuts_own_root_sample :
    let hs := handOuts (rootWalletEnv englishWordlist) sampleReceiveWorld
      [sampleEvent (.newDestination false), importSecondRoot, sampleEvent (.newDestination false)]
    ∃ h ∈ hs, ∃ h' ∈ hs,
      h.program = derivedProgram (rootWalletEnv englishWordlist) (sampleRoot 1) ⟨false, h.index⟩ ∧
      h'.program = derivedProgram (rootWalletEnv englishWordlist) (sampleRoot 0) ⟨false, h'.index⟩ ∧
      h.program ≠ h'.program := by
  intro hs
  obtain ⟨h, hh⟩ : ∃ h, handOut (rootWalletEnv englishWordlist) sampleReceiveWorld
      (sampleEvent (.newDestination false)) = some h := Option.isSome_iff_exists.mp (by decide +kernel)
  obtain ⟨h', hh'⟩ : ∃ h', handOut (rootWalletEnv englishWordlist) (secondRootWorld englishWordlist)
      (sampleEvent (.newDestination false)) = some h' := Option.isSome_iff_exists.mp (by decide +kernel)
  have hmem : h ∈ hs := by simp [hs, handOuts, hh]
  have hmem' : h' ∈ hs := by
    simp only [secondRootWorld, walletRun, List.foldl_cons, List.foldl_nil] at hh'
    simp [hs, handOuts, hh']
  obtain ⟨hd, hfits⟩ := handOut_fits_of_fresh hh rfl rfl
  obtain ⟨hd', hfits'⟩ := handOut_fits_of_fresh hh' (secondRootWorld_descriptor _) (by decide +kernel)
  have hroot : h.descriptor.RootIs (sampleRoot 1) := hd ▸ sampleDescriptor_rootIs _ _
  have hroot' : h'.descriptor.RootIs (sampleRoot 0) := hd' ▸ sampleDescriptor_rootIs _ _
  obtain ⟨hown, hapart⟩ : (∀ h ∈ hs, _) ∧ ∀ h ∈ hs, _ := handOuts_own_root sampleReceiveWorld _
  refine ⟨h, hmem, h', hmem', (hown h hmem _ hroot).mpr (hfits _), (hown h' hmem' _ hroot').mpr (hfits' _), ?_⟩
  refine hapart h hmem h' hmem' _ _ hroot hroot' (hfits _) (hfits' _) fun i j => ?_
  rw [derivedProgram_rootWalletEnv _ 1 i, derivedProgram_rootWalletEnv _ 0 j]
  decide +kernel

end Byze
