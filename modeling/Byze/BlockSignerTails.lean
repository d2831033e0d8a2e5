import Byze.BlockSignerLeaves

/-! The tails the block signer leaves are accepted, as long as no signing call
fails and no rotation stops half way. -/

namespace Byze

namespace BlockSigner
open QuantumSafeManager
variable {Key : Type} {h : Hashes} {lib : Liboqs Key} {getHash : CBlockHeader → Uint256}
  {g : BlockSigner Key} {call : AttachCall} {o : SignOutcome}

theorem signHash_eq {block : CBlock} {sig : Bytes} {m' : QuantumSafeManager Key}
    {leaf : Option (Key × Nat)} {sk : SphincsPrivateKey}
    (hx : g.manager.sign lib (getHash block.toCBlockHeader) .xmss o = (sig, m', leaf))
    (hl : sig.length = xmssSignatureSize) (hsk : m'.sphincsPrivate = some sk) :
    g.signHash lib getHash block o = ⟨true, { block with quantumSignatures :=
          ⟨sig, (sk.sign lib (getHash block.toCBlockHeader) o.sphincs).val,
            m'.getDualPublicKeyBundle⟩ }, { g with manager := m' }, leaf⟩ := by
  have hlen := (sk.sign lib (getHash block.toCBlockHeader) o.sphincs).property
  simp [signHash, hx, hl, sign_sphincsPlus_fst lib hsk, hlen, sign_sphincsPlus_snd]

/-- The keys of a ready signer belong together, or it cannot sign. -/
def Coherent (lib : Liboqs Key) (g : BlockSigner Key) : Prop :=
  g.ready = true → Dead g.manager ∨ Paired lib g.manager

theorem ensure_coherent (hc : Coherent lib g) (env : AttachEnv) :
    Coherent lib (g.ensureBlockSignerKeys h lib env).2 := by
  cases hr : g.ready with
  | true => simpa [ensureBlockSignerKeys, hr] using hc
  | false =>
    simp only [ensureBlockSignerKeys, hr, Bool.false_eq_true, if_false]
    split
    · exact hc
    split
    · intro hready
      simp at hready
    · next hok =>
      intro _
      exact Or.inr ⟨_, pairedAt_of_generate (by simpa using hok)⟩

theorem rotateKeys_ready (env : AttachEnv) : (g.rotateKeys h lib env).2.ready = g.ready := by
  simp only [rotateKeys]
  split
  · rfl
  split <;> rfl

variable {env : AttachEnv}

theorem rotate_coherent (hc : Coherent lib g) (hs : ∀ xmssIndex, g.manager.getXmssIndex lib env.indexRead = some xmssIndex →
      xmssRotationThreshold ≤ xmssIndex → env.rotation.xmss = .succeeds → env.rotation.sphincs = .succeeds) :
    Coherent lib (g.rotateKeys h lib env).2 := by
  simp only [rotateKeys]
  split
  · exact hc
  next xmssIndex hindex =>
  split
  · next hlate =>
    intro _
    cases hok : (g.manager.generateDualKeysFromEntropyIkm h lib env.rotationSeed.val env.rotation).1 with
    | true => exact Or.inr ⟨_, pairedAt_of_generate hok⟩
    | false => exact Or.inl (dead_of_generate hok (hs xmssIndex hindex hlate))
  · exact hc

theorem signHash_coherent (getHash : CBlockHeader → Uint256) (hc : Dead g.manager ∨ Paired lib g.manager) (block : CBlock)
    (hx : o.xmss = .succeeds) (hs : o.sphincs = true) :
    Coherent lib (g.signHash lib getHash block o).signer ∧ ((g.signHash lib getHash block o).ok = true →
        verifyBlockQuantumSignatures lib.toOqsVerify (getHash block.toCBlockHeader)
          (g.signHash lib getHash block o).block = true) := by
  rcases hc with hd | hp
  · have he := hd.sign_xmss lib (getHash block.toCBlockHeader) o
    simp only [signHash, he]
    exact ⟨fun _ => Or.inl hd, fun hok => False.elim (Bool.false_ne_true hok)⟩
  · rcases hp.sign_xmss (getHash block.toCBlockHeader) hx with ⟨hnil, hp'⟩ | ⟨hl, hp', pk, hpk, hv⟩
    · simp only [signHash, hnil]
      exact ⟨fun _ => Or.inr hp', fun hok => False.elim (Bool.false_ne_true hok)⟩
    · have hvalid := hp'.dualSignatureValid _ hs hpk hl hv
      simp only [signHash, hl, hvalid.2.1, sign_sphincsPlus_snd]
      exact ⟨fun _ => Or.inr hp', fun _ => (verifyBlockQuantumSignatures_iff _ _ _).mpr hvalid⟩

theorem attach_coherent (hc : Coherent lib g) (hs : g.Sound h lib call) :
    Coherent lib (g.attachQuantumBlockSignatures h lib getHash call).signer ∧
      (call.requireQuantum = true → call.isGenesis = false →
        (g.attachQuantumBlockSignatures h lib getHash call).ok = true →
        verifyBlockQuantumSignatures lib.toOqsVerify (getHash call.block.toCBlockHeader)
          (g.attachQuantumBlockSignatures h lib getHash call).block = true) := by
  have he := ensure_coherent (h := h) hc call.env
  simp only [attachQuantumBlockSignatures]
  split
  · next hskip =>
    refine ⟨hc, ?_⟩
    intro hq hg
    simp [hq, hg] at hskip
  split
  · exact ⟨he, fun _ _ hok => False.elim (Bool.false_ne_true hok)⟩
  simp only [signBlockWithReadyKeys]
  split
  · exact ⟨he, fun _ _ hok => False.elim (Bool.false_ne_true hok)⟩
  split
  · exact ⟨he, fun _ _ hok => False.elim (Bool.false_ne_true hok)⟩
  next hskip _ hthread hready =>
  obtain ⟨hquantum, hgenesis⟩ : call.requireQuantum = true ∧ call.isGenesis = false := by simpa using hskip
  obtain ⟨hxmss, hsphincs, hrotation⟩ := hs hquantum hgenesis (by simpa using hthread) (by simpa using hready)
  have hrot := rotate_coherent (h := h) he hrotation
  split
  · exact ⟨hrot, fun _ _ hok => False.elim (Bool.false_ne_true hok)⟩
  · have hkeys := hrot ((rotateKeys_ready call.env).trans (by simpa using hready))
    obtain ⟨hc', hv⟩ := signHash_coherent getHash hkeys
      { call.block with quantumSignatures := QuantumSignatureData.null } hxmss hsphincs
    exact ⟨hc', fun _ _ => hv⟩

theorem run_append_singleton (calls : List AttachCall) (call : AttachCall) :
    run h lib getHash (calls ++ [call]) = step h lib getHash (run h lib getHash calls) call := by
  simp [run]

/-- Every call of the run is sound for the signer it meets. -/
def SoundRun (h : Hashes) (lib : Liboqs Key) (getHash : CBlockHeader → Uint256) (calls : List AttachCall) : Prop :=
  ∀ pre call post, calls = pre ++ call :: post → (run h lib getHash pre).1.Sound h lib call

theorem run_coherent {calls : List AttachCall} (hs : SoundRun h lib getHash calls) :
    Coherent lib (run h lib getHash calls).1 := by
  induction calls using List.reverseRecOn with
  | nil =>
    intro hready
    simp [run, initial] at hready
  | append_singleton calls call ih =>
    rw [run_append_singleton]
    have hc := ih fun pre c post hcalls => hs pre c (post ++ [call]) (by simp [hcalls])
    exact (attach_coherent hc (hs calls call [] rfl)).1

/-- Over any run in which the drawn seeds derive different keys, no XMSS key
uses a leaf twice. If moreover no signing call fails and no rotation gets only
its XMSS half, then every call that returns true leaves an accepted tail. -/
theorem run_leaves_nodup_and_tails_verify (h : Hashes) (lib : Liboqs Key)
    (getHash : CBlockHeader → Uint256) (calls : List AttachCall)
    (hf : (calls.flatMap (AttachCall.keys h lib)).Nodup) :
    (run h lib getHash calls).2.Nodup ∧
      (SoundRun h lib getHash calls → ∀ pre call post, calls = pre ++ call :: post →
        call.requireQuantum = true → call.isGenesis = false →
        ((run h lib getHash pre).1.attachQuantumBlockSignatures h lib getHash call).ok = true →
        verifyBlockQuantumSignatures lib.toOqsVerify (getHash call.block.toCBlockHeader)
          ((run h lib getHash pre).1.attachQuantumBlockSignatures h lib getHash call).block = true) := by
  refine ⟨(foldl_step_leafSafe calls (leafSafe_empty lib _) hf).nodup, ?_⟩
  intro hs pre call post hcalls hq hg hok
  have hpre : Coherent lib (run h lib getHash pre).1 :=
    run_coherent fun pre' c post' hpre => hs pre' c (post' ++ call :: post) (by simp [hcalls, hpre])
  exact (attach_coherent hpre (hs pre call post hcalls)).2 hq hg hok

/-- Threads start and key generation succeeds where it is called. -/
structure KeysAvailable (env : AttachEnv) : Prop where
  keygenThread : env.keygenThread = true
  keygen : env.keygen = ⟨.succeeds, .succeeds⟩
  signThread : env.signThread = true
  indexRead : env.indexRead = .succeeds
  rotation : env.rotation = ⟨.succeeds, .succeeds⟩

theorem ensure_of_keysAvailable (hp : g.ready = true → Paired lib g.manager) (he : KeysAvailable env) :
    (g.ensureBlockSignerKeys h lib env).1 = true ∧ (g.ensureBlockSignerKeys h lib env).2.ready = true ∧
      Paired lib (g.ensureBlockSignerKeys h lib env).2.manager := by
  cases hr : g.ready with
  | true => simpa [ensureBlockSignerKeys, hr] using hp hr
  | false =>
    have hok := (generate_fst h lib g.manager env.keygenSeed.val env.keygen).mpr (by simp [he.keygen])
    simpa [ensureBlockSignerKeys, hr, he.keygenThread, hok] using ⟨_, pairedAt_of_generate hok⟩

theorem rotate_of_keysAvailable (hp : Paired lib g.manager) (he : KeysAvailable env) :
    (g.rotateKeys h lib env).1 = true ∧
      ∃ s, PairedAt lib s (g.rotateKeys h lib env).2.manager ∧ s.index < xmssRotationThreshold := by
  obtain ⟨s, hs⟩ := hp
  have hindex := hs.choose_spec.1.getXmssIndex
  simp only [rotateKeys, he.indexRead, hindex]
  split
  · have hok := (generate_fst h lib g.manager env.rotationSeed.val env.rotation).mpr (by simp [he.rotation])
    exact ⟨hok, _, pairedAt_of_generate hok, Nat.zero_lt_succ 949⟩
  · next hlt => exact ⟨rfl, s, hs, Nat.lt_of_not_le hlt⟩

theorem attach_eq_signHash (h : Hashes) (getHash : CBlockHeader → Uint256) (hp : g.ready = true → Paired lib g.manager)
    (he : KeysAvailable call.env) (hq : call.requireQuantum = true) (hg : call.isGenesis = false) :
    ∃ (g' : BlockSigner Key) (s : XmssSecret Key), g'.ready = true ∧ PairedAt lib s g'.manager ∧
      s.index < xmssRotationThreshold ∧
      g.attachQuantumBlockSignatures h lib getHash call = g'.signHash lib getHash
        { call.block with quantumSignatures := QuantumSignatureData.null } call.env.signing := by
  obtain ⟨hok, hready, hpair⟩ := ensure_of_keysAvailable (h := h) hp he
  obtain ⟨hrot, s, hs, hlt⟩ := rotate_of_keysAvailable (h := h) hpair he
  refine ⟨_, s, (rotateKeys_ready call.env).trans hready, hs, hlt, ?_⟩
  simp [attachQuantumBlockSignatures, hq, hg, hok, signBlockWithReadyKeys, he.signThread, hready, hrot]

theorem signHash_of_pairedAt (getHash : CBlockHeader → Uint256) {s : XmssSecret Key}
    (hs : PairedAt lib s g.manager) (hlt : s.index < xmssLeaves) (block : CBlock)
    (ho : o = ⟨true, .succeeds, true⟩) :
    (g.signHash lib getHash block o).ok = true ∧
      PairedAt lib (s.advance hlt) (g.signHash lib getHash block o).signer.manager := by
  have hadv := hs.advance hlt
  obtain ⟨seed, hsec, -, hss, -⟩ := hs
  have hsign := hsec.sign_xmss (getHash block.toCBlockHeader) (o := o) (by simp [ho]) (by simp [ho]) hlt
  rw [signHash_eq hsign (lib.stflSign s.key s.index _).property hss]
  exact ⟨rfl, hadv⟩

def NoFailure (call : AttachCall) : Prop :=
  call.requireQuantum = true ∧ call.isGenesis = false ∧ KeysAvailable call.env ∧
    call.env.signing = ⟨true, .succeeds, true⟩

theorem attach_of_noFailure (getHash : CBlockHeader → Uint256)
    (hp : g.ready = true → Paired lib g.manager) (hc : NoFailure call) :
    (g.attachQuantumBlockSignatures h lib getHash call).ok = true ∧
      Paired lib (g.attachQuantumBlockSignatures h lib getHash call).signer.manager := by
  obtain ⟨hq, hg, hkeys, hsign⟩ := hc
  obtain ⟨g', s, -, hs, hlt, he⟩ := attach_eq_signHash h getHash hp hkeys hq hg
  have hlt' : s.index < xmssLeaves := Nat.lt_trans hlt (by decide)
  obtain ⟨hok, hadv⟩ := signHash_of_pairedAt getHash hs hlt'
    { call.block with quantumSignatures := QuantumSignatureData.null } hsign
  rw [he]
  exact ⟨hok, _, hadv⟩

end BlockSigner

def sampleBlock : CBlock :=
  ⟨⟨4, Uint256.zero, Uint256.zero, 123, 0x207fffff, 42⟩, [], QuantumSignatureData.null⟩

def sampleSeed (b : UInt8) : Uint256 := ⟨b :: List.replicate 31 0, rfl⟩

def sampleCall (b b' : UInt8) (o : XmssSignOutcome) : AttachCall :=
  ⟨sampleBlock, true, false,
    ⟨true, sampleSeed b, ⟨.succeeds, .succeeds⟩, true, .succeeds, sampleSeed b', ⟨.succeeds, .succeeds⟩,
      ⟨true, o, true⟩⟩⟩

/-- The theorem on a run of two calls, both of which return true. -/
theorem run_two_tails_verify : ([sampleCall 0 1 .succeeds, sampleCall 4 5 .succeeds].flatMap
        (AttachCall.keys byteSumHashes sampleLiboqs)).Nodup ∧
      ∀ pre call post, [sampleCall 0 1 .succeeds, sampleCall 4 5 .succeeds] = pre ++ call :: post →
        ((BlockSigner.run byteSumHashes sampleLiboqs (fun _ => Uint256.zero)
          pre).1.attachQuantumBlockSignatures byteSumHashes sampleLiboqs (fun _ => Uint256.zero)
          call).ok = true ∧
        verifyBlockQuantumSignatures sampleLiboqs.toOqsVerify Uint256.zero
          ((BlockSigner.run byteSumHashes sampleLiboqs (fun _ => Uint256.zero)
            pre).1.attachQuantumBlockSignatures byteSumHashes sampleLiboqs (fun _ => Uint256.zero)
            call).block = true := by
  have hnd : ([sampleCall 0 1 .succeeds, sampleCall 4 5 .succeeds].flatMap
      (AttachCall.keys byteSumHashes sampleLiboqs)).Nodup := by decide +kernel
  have hcalls : ∀ pre call post, [sampleCall 0 1 .succeeds, sampleCall 4 5 .succeeds] = pre ++ call :: post →
      call.requireQuantum = true ∧ call.isGenesis = false ∧ call.env.rotation = ⟨.succeeds, .succeeds⟩ ∧
        call.env.signing = ⟨true, .succeeds, true⟩ ∧ ((BlockSigner.run byteSumHashes sampleLiboqs
          (fun _ => Uint256.zero) pre).1.attachQuantumBlockSignatures byteSumHashes sampleLiboqs
          (fun _ => Uint256.zero) call).ok = true := by
    rintro (_ | ⟨first, _ | ⟨_, pre⟩⟩) call post hcalls
    · obtain ⟨rfl, -⟩ := List.cons.inj hcalls
      exact ⟨rfl, rfl, rfl, rfl, by decide +kernel⟩
    · obtain rfl : _ = first := (List.cons.inj hcalls).1
      obtain ⟨rfl, -⟩ := List.cons.inj (List.cons.inj hcalls).2
      exact ⟨rfl, rfl, rfl, rfl, by decide +kernel⟩
    · simp at hcalls
  refine ⟨hnd, fun pre call post h => ?_⟩
  obtain ⟨hq, hg, -, -, hok⟩ := hcalls pre call post h
  refine ⟨hok, (BlockSigner.run_leaves_nodup_and_tails_verify byteSumHashes sampleLiboqs
    (fun _ => Uint256.zero) _ hnd).2 ?_ pre call post h hq hg hok⟩
  intro pre call post h _ _ _ _
  obtain ⟨-, -, hrotation, hsigning, -⟩ := hcalls pre call post h
  simp [hsigning, hrotation]

/-- One call whose XMSS signing fails returns true with a tail that is rejected. -/
theorem first_call_signFails_tail_rejected :
    let r := (BlockSigner.initial : BlockSigner UInt8).attachQuantumBlockSignatures byteSumHashes
      sampleLiboqs (fun _ => Uint256.zero) (sampleCall 0 1 (.signFails false false))
    r.ok = true ∧ verifyBlockQuantumSignatures sampleLiboqs.toOqsVerify Uint256.zero r.block = false := by
  decide +kernel

end Byze
