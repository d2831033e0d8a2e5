import Byze.BlockAcceptance

/-! Neither the header nor the merkle root commits to the tail of a block, so
blocks with one hash can differ in it. A block is safe from the tails of others
as long as none of them passes every check but the weight limit. -/

namespace Byze

def SameContent (c b : CBlock) : Prop := c.toCBlockHeader = b.toCBlockHeader ∧ c.vtx = b.vtx

/-- A tail that is not required, has no signatures or valid ones, and brings a
block that fits without its witness above the weight limit. -/
def Poisons (env : NodeEnv) (c : CBlock) : Prop :=
  isQuantumBlockSignaturePolicyRequired env c.toCBlockHeader true = false ∧
    ((c.quantumSignatures.xmssSignature = [] ∧ c.quantumSignatures.sphincsSignature = []) ∨
      DualSignatureValid env.oqs c.quantumSignatures.xmssSignature
        c.quantumSignatures.sphincsSignature c.quantumSignatures.dualPublicKey
        (env.getHash c.toCBlockHeader)) ∧
    (c.serialize false).length * witnessScaleFactor ≤ maxBlockWeight ∧
    maxBlockWeight < getBlockWeight c

/-- A block that passes every check on top of `prev`, from time `start` on. -/
structure FullyValid (env : ChainEnv) (b : CBlock) (prev : IndexEntry) (start : Nat) : Prop where
  notGenesis : env.getHash b.toCBlockHeader ≠ env.hashGenesisBlock
  hash_ne : env.getHash b.toCBlockHeader ≠ b.hashPrevBlock
  prevValid : prev.failed = false
  checked : checkBlock env.toNodeEnv b true true = .ok ()
  headerChecked : ∀ now, start ≤ now →
    contextualCheckBlockHeader env.toNodeEnv b.toCBlockHeader prev.chain now = .ok ()
  contextChecked : contextualCheckBlock env.toNodeEnv b prev.chain = .ok ()
  connects : env.connectTransactions b.toCBlockHeader b.vtx = .ok ()

/-- The predecessor is in the index, and the block's own entry, if there is
one, builds on it and is not marked failed. -/
structure Intact (env : ChainEnv) (b : CBlock) (prev : IndexEntry) (node : Node) : Prop where
  prevKnown : node.index b.hashPrevBlock = some prev
  notFailed : ∀ e, node.index (env.getHash b.toCBlockHeader) = some e → e.failed = false
  onPrev : ∀ e, node.index (env.getHash b.toCBlockHeader) = some e →
    ∃ nTime nBits, e.chain = .next prev.chain nTime nBits

section
variable {env : ChainEnv} {b c : CBlock} {prev : IndexEntry} {start : Nat} {node : Node}

@[simp] theorem Node.setEntry_index_self (node : Node) (hash : Uint256) (e : IndexEntry) :
    (node.setEntry hash e).index hash = some e := by
  simp [Node.setEntry]

theorem Node.invalidBlockFound_failed {reject : BlockReject} (h : reject.result ≠ .mutated) (node : Node)
    (hash : Uint256) (entry : IndexEntry) :
    ∃ e, (node.invalidBlockFound hash entry reject).index hash = some e ∧ e.failed = true := by
  rw [Node.invalidBlockFound, if_pos h]
  exact ⟨{ entry with failed := true }, by simp [Node.setBlockFailureFlags], rfl⟩

theorem addToBlockIndex_new (hi : Intact env b prev node)
    (he : node.index (env.getHash b.toCBlockHeader) = none) :
    ∃ e, node.addToBlockIndex env b.toCBlockHeader =
        (e, node.setEntry (env.getHash b.toCBlockHeader) e) ∧ e.failed = false ∧ e.stored = none ∧
      ∃ nTime nBits, e.chain = .next prev.chain nTime nBits := by
  simp only [Node.addToBlockIndex, he, hi.prevKnown]
  exact ⟨_, rfl, rfl, rfl, _, _, rfl⟩

section
variable (hb : FullyValid env b prev start)
include hb

section
variable (hc : SameContent c b) (hp : ¬ Poisons env.toNodeEnv c)
  (hok : checkBlock env.toNodeEnv c true true = .ok ())

include hc hp hok

theorem weight_le_of_checked : getBlockWeight c ≤ maxBlockWeight := by
  obtain ⟨-, htail, hsize⟩ := checkBlock_ok_iff.mp hok
  obtain ⟨-, hbtail, -⟩ := checkBlock_ok_iff.mp hb.checked
  obtain ⟨-, hbweight⟩ := contextualCheckBlock_ok_iff.mp hb.contextChecked
  cases hreq : isQuantumBlockSignaturePolicyRequired env.toNodeEnv c.toCBlockHeader true with
  | true =>
    obtain ⟨hx, hs, hd⟩ := checkQuantumTail_required hreq htail
    rw [hc.1] at hreq
    obtain ⟨hbx, hbs, hbd⟩ := checkQuantumTail_required hreq hbtail
    have heq : getBlockWeight c = getBlockWeight b := by
      rw [getBlockWeight_eq, getBlockWeight_eq, hc.2]
      simp [QuantumSignatureData.serialize, serializeBytes_length, hx, hs, hd, hbx, hbs, hbd]
    rw [heq]
    exact hbweight
  | false =>
    by_contra hlt
    exact hp ⟨hreq, (checkQuantumTail_optional_iff hreq).mp htail, (checkBlockSize_ok_iff.mp hsize).2.2, Nat.lt_of_not_le hlt⟩

theorem contextualCheckBlock_of_checked : contextualCheckBlock env.toNodeEnv c prev.chain = .ok () := by
  obtain ⟨hbtxs, -⟩ := contextualCheckBlock_ok_iff.mp hb.contextChecked
  rw [contextualCheckBlock_ok_iff, hc.1, hc.2]
  exact ⟨hbtxs, weight_le_of_checked hb hc hp hok⟩

theorem checkAcceptedBlock_ok {entry : IndexEntry}
    (hchain : ∃ nTime nBits, entry.chain = .next prev.chain nTime nBits) :
    Node.checkAcceptedBlock env c entry = .ok () := by
  obtain ⟨nTime, nBits, hchain⟩ := hchain
  simp only [Node.checkAcceptedBlock, hok, hchain]
  exact contextualCheckBlock_of_checked hb hc hp hok
end

variable (hi : Intact env b prev node)
include hi

theorem Intact.setEntry {e : IndexEntry} (hf : e.failed = false)
    (hchain : ∃ nTime nBits, e.chain = .next prev.chain nTime nBits) :
    Intact env b prev (node.setEntry (env.getHash b.toCBlockHeader) e) where
  prevKnown := by
    simp only [Node.setEntry, if_neg (Ne.symm hb.hash_ne)]
    exact hi.prevKnown
  notFailed e' he' := by
    obtain rfl : e = e' := by simpa using he'
    exact hf
  onPrev e' he' := by
    obtain rfl : e = e' := by simpa using he'
    exact hchain

theorem acceptBlockHeader_intact {minPowChecked : Bool} {now : Nat} {entry : IndexEntry} {node' : Node}
    (h : node.acceptBlockHeader env b.toCBlockHeader minPowChecked now = .ok (entry, node')) :
    Intact env b prev node' ∧ entry.failed = false ∧
      (entry.stored = none ∨ node.index (env.getHash b.toCBlockHeader) = some entry) ∧
      ∃ nTime nBits, entry.chain = .next prev.chain nTime nBits := by
  cases he : node.index (env.getHash b.toCBlockHeader) with
  | some e =>
    have hf := hi.notFailed e he
    have hchain := hi.onPrev e he
    rw [Node.acceptBlockHeader_known hb.notGenesis he hf] at h
    cases h
    exact ⟨hi, hf, Or.inr rfl, hchain⟩
  | none =>
    rw [Node.acceptBlockHeader_new hb.notGenesis he, ExceptEq.unit_bind_eq_ok_iff, ExceptEq.ite_error_eq_ok_iff] at h
    obtain ⟨e, hadd, hf, hs, hchain⟩ := addToBlockIndex_new hi he
    have hpair := Except.ok.inj h.2.2
    rw [hadd] at hpair
    cases hpair
    exact ⟨hi.setEntry hb hf hchain, hf, Or.inl hs, hchain⟩

theorem acceptBlockHeader_ok {now : Nat} (hnow : start ≤ now) :
    ∃ r, node.acceptBlockHeader env b.toCBlockHeader true now = .ok r := by
  cases he : node.index (env.getHash b.toCBlockHeader) with
  | some e => exact ⟨_, Node.acceptBlockHeader_known hb.notGenesis he (hi.notFailed e he) _ _⟩
  | none =>
    have hheader := (checkBlock_ok_iff.mp hb.checked).1.headerOk
    have hnew : node.checkNewHeader env b.toCBlockHeader now = .ok () := by
      simp [Node.checkNewHeader, hheader, hi.prevKnown, hb.prevValid, hb.headerChecked now hnow]
    rw [Node.acceptBlockHeader_new hb.notGenesis he, hnew]
    exact ⟨_, rfl⟩

variable {call : BlockCall}

/-- A block that passed `CheckBlock` is either stored or left alone: nothing
is marked failed. It is refused only if its header is. -/
theorem acceptBlock_intact (hc : SameContent call.block b) (hp : ¬ Poisons env.toNodeEnv call.block)
    (hok : checkBlock env.toNodeEnv call.block true true = .ok ()) :
    Intact env b prev (node.acceptBlock env call).2 ∧
      ((∃ r, node.acceptBlockHeader env b.toCBlockHeader call.minPowChecked call.now = .ok r) →
        (node.acceptBlock env call).1 = .ok ()) := by
  simp only [Node.acceptBlock, hc.1]
  cases hh : node.acceptBlockHeader env b.toCBlockHeader call.minPowChecked call.now with
  | error e => exact ⟨hi, by simp⟩
  | ok r =>
    obtain ⟨hi', hf, -, hchain⟩ := acceptBlockHeader_intact hb hi hh
    simp only [checkAcceptedBlock_ok hb hc hp hok hchain]
    split
    · exact ⟨hi', fun _ => rfl⟩
    split
    · exact ⟨hi', fun _ => rfl⟩
    · exact ⟨hi'.setEntry hb hf hchain, fun _ => rfl⟩

theorem connectTip_intact (hc : SameContent c b) (hok : checkBlock env.toNodeEnv c true true = .ok ()) :
    Intact env b prev (node.connectTip env c) := by
  have hconnect : Node.connectBlock env c = .ok () := by
    simp [Node.connectBlock, hok, hc.1, hc.2, hb.connects]
  simp only [Node.connectTip, hconnect]
  split
  · exact hi
  split
  · exact ⟨hi.prevKnown, hi.notFailed, hi.onPrev⟩
  · exact hi

theorem processNewBlock_intact (hc : SameContent call.block b) (hp : ¬ Poisons env.toNodeEnv call.block) :
    Intact env b prev (node.processNewBlock env call).2 := by
  simp only [Node.processNewBlock]
  cases hok : checkBlock env.toNodeEnv call.block true true with
  | error e => exact hi
  | ok u =>
    have ha := (acceptBlock_intact hb hi hc hp hok).1
    cases hr : node.acceptBlock env call with
    | mk r node' =>
      rw [hr] at ha
      cases r with
      | error e => exact ha
      | ok u =>
        dsimp only
        split
        · exact connectTip_intact hb ha hc hok
        · exact ha

theorem processNewBlock_accepts (hblock : call.block = b) (hpow : call.minPowChecked = true)
    (hnow : start ≤ call.now) :
    (node.processNewBlock env call).1 = true := by
  have hc : SameContent call.block b := by
    rw [hblock]
    exact ⟨rfl, rfl⟩
  have hp : ¬ Poisons env.toNodeEnv call.block := by
    rintro ⟨-, -, -, hlt⟩
    rw [hblock] at hlt
    exact absurd (contextualCheckBlock_ok_iff.mp hb.contextChecked).2 (Nat.not_le_of_lt hlt)
  have hok : checkBlock env.toNodeEnv call.block true true = .ok () := by
    rw [hblock]
    exact hb.checked
  have hheader := acceptBlockHeader_ok hb hi hnow
  rw [← hpow] at hheader
  have ha := (acceptBlock_intact hb hi hc hp hok).2 hheader
  simp only [Node.processNewBlock, hok]
  cases hr : node.acceptBlock env call with
  | mk r node' =>
    rw [hr] at ha
    simp only at ha
    simp [ha]

/-- A tail that poisons, processed before any data of the block is stored,
marks the block failed, and the block itself is then refused. -/
theorem processNewBlock_poisoned
    (hdata : ∀ e, node.index (env.getHash b.toCBlockHeader) = some e → e.stored = none)
    (hc : SameContent call.block b) (hp : Poisons env.toNodeEnv call.block)
    (hforce : call.forceProcessing = true) (hpow : call.minPowChecked = true)
    (hnow : start ≤ call.now) :
    (∃ e, (node.processNewBlock env call).2.index (env.getHash b.toCBlockHeader) = some e ∧ e.failed = true) ∧
      ∀ later : BlockCall, later.block = b →
        ((node.processNewBlock env call).2.processNewBlock env later).1 = false := by
  obtain ⟨hbcontent, -, hbsize⟩ := checkBlock_ok_iff.mp hb.checked
  have hok : checkBlock env.toNodeEnv call.block true true = .ok () := by
    obtain ⟨hne, hlen, -⟩ := checkBlockSize_ok_iff.mp hbsize
    rw [checkBlock_ok_iff, checkBlockSize_ok_iff, hc.1, hc.2]
    exact ⟨hbcontent, (checkQuantumTail_optional_iff hp.1).mpr hp.2.1, hne, hlen, hp.2.2.1⟩
  obtain ⟨⟨entry, node'⟩, hheader⟩ := acceptBlockHeader_ok hb hi hnow
  obtain ⟨-, -, hold, nTime, nBits, hchain⟩ := acceptBlockHeader_intact hb hi hheader
  have hstored : entry.stored = none := by
    rcases hold with hs | he
    · exact hs
    · exact hdata entry he
  have hreject : Node.checkAcceptedBlock env call.block entry = .error ⟨.consensus, "bad-blk-weight"⟩ := by
    have htxs := (contextualCheckBlock_ok_iff.mp hb.contextChecked).1
    simp [Node.checkAcceptedBlock, hok, hchain, contextualCheckBlock, hc.1, hc.2, htxs,
      checkBlockWeight, if_pos hp.2.2.2]
  obtain ⟨e, he, hf⟩ : ∃ e, (node.processNewBlock env call).2.index (env.getHash b.toCBlockHeader) = some e ∧
      e.failed = true := by
    simp only [Node.processNewBlock, hok, Node.acceptBlock, hc.1, hpow, hheader, hstored, hforce, hreject]
    have hne : (BlockReject.mk .consensus "bad-blk-weight").result ≠ .mutated := by decide
    exact Node.invalidBlockFound_failed hne node' _ entry
  refine ⟨⟨e, he, hf⟩, fun later hlater => ?_⟩
  have hblocked : (node.processNewBlock env call).2.acceptBlockHeader env b.toCBlockHeader later.minPowChecked
      later.now = .error ⟨.cachedInvalid, "duplicate-invalid"⟩ := by
    simp [Node.acceptBlockHeader, hb.notGenesis, he, hf]
  rw [Node.processNewBlock]
  simp [hlater, hb.checked, Node.acceptBlock, hblocked]
end

theorem run_intact (hb : FullyValid env b prev start) {calls : List BlockCall}
    (hcalls : ∀ call ∈ calls, SameContent call.block b ∧ ¬ Poisons env.toNodeEnv call.block)
    (hi : Intact env b prev node) : Intact env b prev (node.run env calls) := by
  induction calls generalizing node with
  | nil => exact hi
  | cons call calls ih =>
    obtain ⟨hc, hp⟩ := hcalls call List.mem_cons_self
    exact ih (fun c hmem => hcalls c (List.mem_cons_of_mem _ hmem)) (processNewBlock_intact hb hi hc hp)

/-- Whatever blocks with the header and the transactions of a fully valid block are
given to the node, if none of them poisons it, then its entry is never marked failed
and the block itself is accepted. -/
theorem run_variants_not_failed_and_accepts (hb : FullyValid env b prev start) {calls : List BlockCall}
    (hcalls : ∀ call ∈ calls, SameContent call.block b ∧ ¬ Poisons env.toNodeEnv call.block)
    (hi : Intact env b prev node) :
    (∀ e, (node.run env calls).index (env.getHash b.toCBlockHeader) = some e → e.failed = false) ∧
      ∀ call : BlockCall, call.block = b → call.minPowChecked = true → start ≤ call.now →
        ((node.run env calls).processNewBlock env call).1 = true := by
  have hrun := run_intact hb hcalls hi
  refine ⟨hrun.notFailed, ?_⟩
  intro call hblock hpow hnow
  exact processNewBlock_accepts hb hrun hblock hpow hnow
end

def regtestCoinbase : CTransaction :=
  { version := 2
    vin := [⟨⟨Uint256.zero, 0xffffffff⟩, [op1, op0], 0xfffffffe, [List.replicate 32 0]⟩]
    vout := [⟨0, []⟩, ⟨0, [0x6a, 0x24, 0xaa, 0x21, 0xa9, 0xed] ++ List.replicate 32 0⟩]
    nLockTime := 0 }

def regtestPrevHash : Uint256 := Uint256.fill 1

def regtestBlock (dualPublicKey : Bytes) : CBlock :=
  ⟨⟨4, regtestPrevHash, Uint256.zero, 2, 0x207fffff, 1⟩, [regtestCoinbase], ⟨[], [], dualPublicKey⟩⟩

def regtestEnv : ChainEnv :=
  { hashes := ⟨fun _ => Uint256.zero, fun b => b, fun b => b⟩
    oqs := ⟨fun _ _ _ => false, fun _ _ _ => false⟩
    getHash := fun _ => Uint256.zero
    chain := .regtest false
    hashGenesisBlock := regtestPrevHash
    enforceQuantumBlockSigs := false
    signetBlocks := false
    checkSignetBlockSolution := fun _ _ => true
    bip34Height := 1
    bip65Height := 1
    bip66Height := 1
    csvHeight := 1
    segwitHeight := 0
    connectTransactions := fun _ _ => .ok () }

def regtestGenesis : IndexEntry := ⟨.genesis 1 0x207fffff, [regtestPrevHash], 2, false, none, 1⟩

def regtestNode : Node :=
  { index := fun h => if h = regtestPrevHash then some regtestGenesis else none
    activeTip := some regtestGenesis
    minimumChainWork := 0 }

theorem regtestBlock_serialize_length (key : Bytes) : ((regtestBlock key).serialize false).length =
      192 + getSizeOfCompactSize key.length + key.length := by
  have hcb : (regtestCoinbase.serialize false).length = 109 := by decide +kernel
  have h0 : getSizeOfCompactSize 0 = 1 := rfl
  have h1 : getSizeOfCompactSize (0 + 1) = 1 := rfl
  simp only [CBlock.serialize, regtestBlock, List.length_append, CBlockHeader.serialize_length,
    serializeVector_length, QuantumSignatureData.serialize, serializeBytes_length, List.map_cons,
    List.map_nil, List.sum_cons, List.sum_nil, List.length_cons, List.length_nil]
  omega

theorem regtestBlock_weight (key : Bytes) : getBlockWeight (regtestBlock key) =
      4 * (192 + getSizeOfCompactSize key.length + key.length) + 36 := by
  have hcb : getTransactionWeight regtestCoinbase = 472 := by decide +kernel
  have h0 : getSizeOfCompactSize 0 = 1 := rfl
  have h1 : getSizeOfCompactSize (0 + 1) = 1 := rfl
  rw [getBlockWeight_eq]
  simp only [regtestBlock, QuantumSignatureData.serialize, List.length_append,
    serializeBytes_length, List.map_cons, List.map_nil, List.sum_cons, List.sum_nil,
    List.length_cons, List.length_nil, witnessScaleFactor]
  omega

theorem regtestBlock_fullyValid : FullyValid regtestEnv (regtestBlock []) regtestGenesis 0 where
  notGenesis := by decide
  hash_ne := by decide
  prevValid := rfl
  checked := by decide +kernel
  headerChecked now _ := by
    have hwork : getNextWorkRequired regtestGenesis.chain (regtestBlock []).nTime.toNat
        regtestEnv.params = some (regtestBlock []).nBits.toNat := by decide +kernel
    have htime : ¬ (regtestBlock []).nTime.toNat ≤ regtestGenesis.chain.getMedianTimePast := by
      decide +kernel
    have hfuture : ¬ (regtestBlock []).nTime.toNat > now + maxFutureBlockTime := by
      change ¬ 2 > now + 7200
      omega
    simp only [contextualCheckBlockHeader, hwork, htime, hfuture]
    rfl
  contextChecked := by decide +kernel
  connects := rfl

theorem regtestNode_intact : Intact regtestEnv (regtestBlock []) regtestGenesis regtestNode where
  prevKnown := rfl
  notFailed e he := by
    cases he
  onPrev e he := by
    cases he

theorem regtest_short_tail_harmless :
    (∀ e, (regtestNode.run regtestEnv [⟨regtestBlock [7], true, true, 0, true⟩]).index
        (regtestEnv.getHash (regtestBlock []).toCBlockHeader) = some e → e.failed = false) ∧
      ∀ call : BlockCall, call.block = regtestBlock [] → call.minPowChecked = true → 0 ≤ call.now →
        ((regtestNode.run regtestEnv [⟨regtestBlock [7], true, true, 0, true⟩]).processNewBlock regtestEnv
          call).1 = true := by
  apply run_variants_not_failed_and_accepts regtestBlock_fullyValid _ regtestNode_intact
  intro call hmem
  rw [List.mem_singleton.mp hmem]
  refine ⟨⟨rfl, rfl⟩, ?_⟩
  rintro ⟨-, -, -, hlt⟩
  rw [regtestBlock_weight] at hlt
  exact absurd hlt (by decide)

theorem regtestBlock_poisons {key : Bytes} (hkey : key.length = 999803) :
    Poisons regtestEnv.toNodeEnv (regtestBlock key) := by
  refine ⟨rfl, .inl ⟨rfl, rfl⟩, ?_, ?_⟩
  · rw [regtestBlock_serialize_length, hkey]
    decide
  · rw [regtestBlock_weight, hkey]
    decide

theorem regtest_long_tail_poisons : FullyValid regtestEnv (regtestBlock []) regtestGenesis 0 ∧
      SameContent (regtestBlock (List.replicate 999803 0)) (regtestBlock []) ∧
    (∃ e, (regtestNode.processNewBlock regtestEnv
          ⟨regtestBlock (List.replicate 999803 0), true, true, 0, true⟩).2.index
        (regtestEnv.getHash (regtestBlock []).toCBlockHeader) = some e ∧ e.failed = true) ∧
      ∀ later : BlockCall, later.block = regtestBlock [] → ((regtestNode.processNewBlock regtestEnv
          ⟨regtestBlock (List.replicate 999803 0), true, true, 0, true⟩).2.processNewBlock regtestEnv
            later).1 = false := by
  refine ⟨regtestBlock_fullyValid, ⟨rfl, rfl⟩, processNewBlock_poisoned regtestBlock_fullyValid regtestNode_intact
    (fun e he => ?_) ⟨rfl, rfl⟩ (regtestBlock_poisons List.length_replicate) rfl rfl (Nat.zero_le _)⟩
  cases he

end Byze
