import Byze.BlockArrivals

/-! A node that accepts a header or a block takes the step of chain selection that its
checks of the block stand for. -/

namespace Byze.ChainSelection
open StateWp Chainstate ExceptEq

section
variable {Block : Type} [LinearOrder Block] {tree : BlockTree Block} {s t : Chainstate Block} {b : Block}

/-- The states agree on what accepting a block reads. -/
structure SameView (s t : Chainstate Block) : Prop where
  index : t.index = s.index
  tip : t.tip = s.tip
  failed : ∀ c, t.failed c = s.failed c
  haveData : ∀ c, t.haveData c = s.haveData c

theorem linkQueue_sameView (n : Nat) (queue : List Block) (s : Chainstate Block) :
    SameView s (linkQueue tree n queue s) := by
  induction n generalizing queue s with
  | zero => exact ⟨rfl, rfl, fun _ => rfl, fun _ => rfl⟩
  | succ n ih =>
    cases queue with
    | nil => exact ⟨rfl, rfl, fun _ => rfl, fun _ => rfl⟩
    | cons b queue =>
      rw [linkQueue_cons]
      obtain ⟨hindex, htip, hfailed, hdata⟩ := ih (queue ++ waitingFor s b) (linkNext tree b s)
      exact ⟨hindex.trans linkBlock_frame.1, htip.trans linkBlock_frame.2.1,
        fun c => (hfailed c).trans (linkBlock_failed c), fun c => (hdata c).trans (linkBlock_haveData c)⟩

theorem receivedBlockTransactions_sameView : SameView (s.storeData b) (s.receivedBlockTransactions tree b) := by
  have hsame : ∀ unlinked, SameView (s.storeData b) { s.storeData b with blocksUnlinked := unlinked } :=
    fun _ => ⟨rfl, rfl, fun _ => rfl, fun _ => rfl⟩
  rw [receivedBlockTransactions]
  cases tree.pprev b with
  | none => exact linkQueue_sameView _ _ _
  | some p =>
    dsimp only
    split
    · exact linkQueue_sameView _ _ _
    · split
      · exact hsame _
      · exact hsame _
end

variable {env : ChainEnv} {tree : BlockTree Uint256} {node : Node} {s t : Chainstate Uint256} {header : CBlockHeader}
  {hash : Uint256}

structure EntryOf (tree : BlockTree Uint256) (hash : Uint256) (e : IndexEntry) : Prop where
  nHeight : e.chain.nHeight = tree.nHeight hash
  nChainWork : e.nChainWork = tree.nChainWork hash
  ancestors : e.ancestors = tree.ancestors hash

structure EntrySeen (tree : BlockTree Uint256) (s : Chainstate Uint256) (hash : Uint256) (e : IndexEntry) : Prop
    extends EntryOf tree hash e where
  failed : e.failed = s.failed hash
  stored : e.stored.isSome = s.haveData hash
  processed : e.nTx ≠ 0 → e.stored.isSome = true

/-- Chain selection has the block index and the tip of the node. -/
structure Seen (tree : BlockTree Uint256) (node : Node) (s : Chainstate Uint256) : Prop where
  known : ∀ hash, hash ∈ s.index ↔ ∃ e, node.index hash = some e
  genesis : tree.genesis ∈ s.index
  entries : ∀ hash e, node.index hash = some e → EntrySeen tree s hash e
  tip : ∃ e, node.activeTip = some e ∧ EntryOf tree s.tip e

/-- The tree has the header, on top of its predecessor if it is not the first. -/
structure InTree (env : ChainEnv) (tree : BlockTree Uint256) (header : CBlockHeader) : Prop where
  genesis : tree.genesis = env.hashGenesisBlock
  pprev : env.getHash header ≠ tree.genesis → tree.pprev (env.getHash header) = some header.hashPrevBlock
  nChainWork : env.getHash header ≠ tree.genesis → tree.nChainWork (env.getHash header) =
    tree.nChainWork header.hashPrevBlock + getBlockProof header.nBits.toNat

def headerChecks (env : ChainEnv) (node : Node) (header : CBlockHeader) (now : Nat) : Bool :=
  decide (checkBlockHeader env.toNodeEnv header true = .ok ()) && (node.index header.hashPrevBlock).any fun prev =>
    decide (contextualCheckBlockHeader env.toNodeEnv header prev.chain now = .ok ())

def blockChecks (env : ChainEnv) (block : CBlock) (entry : IndexEntry) : CheckResult :=
  match Node.checkAcceptedBlock env block entry with
  | .ok () => .passes
  | .error e => if e.result = .mutated then .mutated else .invalid

/-- What chain selection is told of a block that the node is given. -/
def arrivalOf (env : ChainEnv) (node : Node) (call : BlockCall) : Arrival where
  headerChecks := headerChecks env node call.block.toCBlockHeader call.now
  minPowChecked := call.minPowChecked
  requested := call.forceProcessing
  minimumChainWork := node.minimumChainWork
  checks := match node.acceptBlockHeader env call.block.toCBlockHeader call.minPowChecked call.now with
    | .ok (entry, _) => blockChecks env call.block entry
    | .error _ => .invalid

theorem Seen.setEntry {e : IndexEntry} (h : Seen tree node s) (hindex : ∀ c, c ∈ t.index ↔ c = hash ∨ c ∈ s.index)
    (htip : t.tip = s.tip) (hfailed : ∀ c, c ≠ hash → t.failed c = s.failed c)
    (hdata : ∀ c, c ≠ hash → t.haveData c = s.haveData c) (he : EntrySeen tree t hash e) :
    Seen tree (node.setEntry hash e) t where
  known c := by
    by_cases hc : c = hash
    · simp [hindex, Node.setEntry, hc]
    · simp [hindex, Node.setEntry, hc, h.known]
  genesis := (hindex _).mpr (Or.inr h.genesis)
  entries c e' he' := by
    by_cases hc : c = hash
    · obtain rfl : e = e' := by simpa [Node.setEntry, hc] using he'
      rwa [hc]
    · have hold := h.entries c e' (by simpa [Node.setEntry, hc] using he')
      exact ⟨hold.toEntryOf, (hfailed c hc).symm ▸ hold.failed, (hdata c hc).symm ▸ hold.stored, hold.processed⟩
  tip := htip ▸ h.tip

/-- A new header passes if its checks do and its predecessor is known and not marked. -/
theorem Seen.checkNewHeader_ok_iff (h : Seen tree node s) {now : Nat} :
    node.checkNewHeader env header now = .ok () ↔ headerChecks env node header now = true ∧
      header.hashPrevBlock ∈ s.index ∧ s.failed header.hashPrevBlock = false := by
  rw [h.known, Node.checkNewHeader, unit_bind_eq_ok_iff, headerChecks, Bool.and_eq_true, decide_eq_true_eq, and_assoc]
  refine and_congr_right fun _ => ?_
  cases hprev : node.index header.hashPrevBlock with
  | none => simp
  | some prev => simp [← (h.entries _ prev hprev).failed, ite_error_eq_ok_iff, and_comm]

/-- A new header has an entry on top of that of its predecessor. -/
theorem Seen.addToBlockIndex (h : Seen tree node s) (hin : InTree env tree header)
    (hg : env.getHash header ≠ tree.genesis) (hnew : node.index (env.getHash header) = none)
    (hprev : header.hashPrevBlock ∈ s.index) :
    ∃ e, node.addToBlockIndex env header = (e, node.setEntry (env.getHash header) e) ∧
      ∀ entry : Uint256 → Entry, entry (env.getHash header) = Entry.new →
        (∀ c, c ≠ env.getHash header → entry c = s.entry c) →
        Seen tree (node.setEntry (env.getHash header) e)
          { s with index := env.getHash header :: s.index, entry := entry } := by
  obtain ⟨prev, hprev⟩ := (h.known _).mp hprev
  have hentry := h.entries _ prev hprev
  refine ⟨_, by simp only [Node.addToBlockIndex, hnew, hprev]; rfl, fun entry hself hothers => ?_⟩
  refine h.setEntry (fun c => List.mem_cons) rfl ?_ ?_ ?_
  · intro c hc
    simp [Chainstate.failed, hothers c hc]
  · intro c hc
    simp [Chainstate.haveData, hothers c hc]
  · constructor
    · exact ⟨by simp [CBlockIndex.nHeight, hentry.nHeight, tree.nHeight_pprev _ _ (hin.pprev hg)],
        by simp [hentry.nChainWork, hin.nChainWork hg],
        by simp [hentry.ancestors, BlockTree.ancestors_of_pprev (hin.pprev hg)]⟩
    · simp [Chainstate.failed, hself, Entry.failed, Entry.new]
    · simp [Chainstate.haveData, hself, Entry.new]
    · simp

/-- The checks of an unrequested block come to the same. -/
theorem Seen.skipsUnrequested {e : IndexEntry} (h : Seen tree node s) (he : EntrySeen tree s hash e)
    (hstored : e.stored.isSome = false) :
    node.skipsUnrequested e = (decide (tree.nChainWork hash < tree.nChainWork s.tip) ||
      decide (tree.nHeight s.tip + minBlocksToKeep < tree.nHeight hash) ||
      decide (tree.nChainWork hash < node.minimumChainWork)) := by
  obtain ⟨tip, htip, htipEntry⟩ := h.tip
  have hnTx : e.nTx = 0 := by
    by_contra hne
    rw [he.processed hne] at hstored
    cases hstored
  simp [Node.skipsUnrequested, htip, hnTx, he.nHeight, he.nChainWork, htipEntry.nHeight, htipEntry.nChainWork]
  simp only [← decide_not, Nat.not_le]

theorem Seen.withFaults (h : Seen tree node s) (faults : List Bool) : Seen tree node { s with faults := faults } :=
  ⟨h.known, h.genesis, fun c e he => { h.entries c e he with }, h.tip⟩

variable [LinearOrder Uint256]

theorem Seen.acceptBlockHeader (h : Seen tree node s) (hin : InTree env tree header) (minPowChecked : Bool)
    (now : Nat) :
    wp (acceptBlockHeader tree (env.getHash header) (headerChecks env node header now) minPowChecked)
      (fun accepted t => match node.acceptBlockHeader env header minPowChecked now with
        | .error _ => accepted = false ∧ Seen tree node t
        | .ok (e, node') => accepted = true ∧ Seen tree node' t ∧ node'.index (env.getHash header) = some e ∧
            node'.minimumChainWork = node.minimumChainWork)
      (fun _ _ => False) s := by
  by_cases hg : env.getHash header = tree.genesis
  · obtain ⟨e, he⟩ := (h.known _).mp h.genesis
    refine wp_ite (fun hb => absurd hg hb.1) fun _ => ?_
    rw [hg, tree.pprev_genesis]
    cases minPowChecked with
    | false => simpa [Node.acceptBlockHeader, hg, hin.genesis] using h
    | true => simpa [Node.acceptBlockHeader, Node.addToBlockIndex, hg, ← hin.genesis, he] using h
  have hne : env.getHash header ≠ env.hashGenesisBlock := fun heq => hg (heq.trans hin.genesis.symm)
  cases hnode : node.index (env.getHash header) with
  | some e =>
    refine wp_ite (fun _ => ?_) fun hb => absurd ⟨hg, (h.known _).mpr ⟨e, hnode⟩⟩ hb
    have hfailed := (h.entries _ e hnode).failed
    cases hf : e.failed with
    | false => simpa [Node.acceptBlockHeader, hne, hnode, hf, ← hfailed] using h
    | true => simpa [Node.acceptBlockHeader, hne, hnode, hf, ← hfailed] using h
  | none =>
    have hnew : env.getHash header ∉ s.index := by simp [h.known, hnode]
    refine wp_ite (fun hb => absurd hb.2 hnew) fun _ => ?_
    rw [hin.pprev hg, Node.acceptBlockHeader_new hne hnode]
    have hpasses : node.checkNewHeader env header now = .ok () ↔ _ := h.checkNewHeader_ok_iff
    cases hcheck : node.checkNewHeader env header now with
    | error e =>
      rw [hcheck] at hpasses
      refine wp_ite (fun _ => ⟨rfl, h⟩) fun hgood => ?_
      simp only [Bool.or_eq_true, decide_eq_true_eq, not_or, Bool.not_eq_true, not_not, Bool.not_eq_false'] at hgood
      cases hpasses.mpr ⟨hgood.1.1.1, hgood.1.1.2, hgood.1.2⟩
    | ok _ =>
      obtain ⟨hchecks, hprev, hunmarked⟩ := hpasses.mp hcheck
      obtain ⟨e, hadd, hseen⟩ := h.addToBlockIndex hin hg hnode hprev
      cases minPowChecked with
      | false => simpa using h
      | true =>
        refine wp_ite (fun hbad => ?_) fun _ => ?_
        · simp [hchecks, hprev, hunmarked] at hbad
        · simp only [ok_bind, Bool.not_true, Bool.false_eq_true, if_false, hadd]
          refine ⟨rfl, hseen _ ?_ fun c hc => ?_, by simp [Node.setEntry], rfl⟩
          · simp [Function.update]
          · simp [Function.update, hc]

theorem Seen.invalidBlockFound {e : IndexEntry} {reject : BlockReject} (h : Seen tree node s)
    (he : node.index hash = some e) (hreject : reject.result ≠ .mutated) :
    Seen tree (node.invalidBlockFound hash e reject) (s.invalidBlockFound tree hash) := by
  have hindex := (h.known hash).mpr ⟨e, he⟩
  have hsame : SameData s (s.invalidBlockFound tree hash) := invalidBlockFound_sameData
  have hfound : ∀ c, (node.invalidBlockFound hash e reject).index c = (node.index c).map fun old =>
      if hash ∈ tree.ancestors c then { old with failed := true } else old := by
    intro c
    rw [Node.invalidBlockFound, if_pos hreject]
    by_cases hc : c = hash
    · simp [Node.setBlockFailureFlags, Node.setEntry, hc, he]
    · cases hold : node.index c with
      | none => simp [Node.setBlockFailureFlags, Node.setEntry, hc, hold]
      | some old => simp [Node.setBlockFailureFlags, Node.setEntry, hc, hold, (h.entries c old hold).ancestors]
  constructor
  · intro c
    rw [hsame.index, h.known, hfound]
    simp
  · rw [hsame.index]
    exact h.genesis
  · intro c e' he'
    rw [hfound] at he'
    obtain ⟨old, hold, rfl⟩ := Option.map_eq_some_iff.mp he'
    obtain ⟨⟨hheight, hwork, hanc⟩, hfailed, hstored, hprocessed⟩ := h.entries c old hold
    have hmark : (s.invalidBlockFound tree hash).failed c = (old.failed || decide (hash ∈ tree.ancestors c)) := by
      rw [Bool.eq_iff_iff, failed_invalidBlockFound hindex, hfailed]
      simp [(h.known c).mpr ⟨old, hold⟩]
    have hdata : old.stored.isSome = (s.invalidBlockFound tree hash).haveData c := hstored.trans (hsame.haveData c).symm
    by_cases hmem : hash ∈ tree.ancestors c
    · rw [if_pos hmem]
      exact ⟨⟨hheight, hwork, hanc⟩, by simp [hmark, hmem], hdata, hprocessed⟩
    · rw [if_neg hmem]
      exact ⟨⟨hheight, hwork, hanc⟩, by simp [hmark, hmem], hdata, hprocessed⟩
  · rw [Node.invalidBlockFound, if_pos hreject]
    exact h.tip

theorem Seen.receivedBlockTransactions {e : IndexEntry} (h : Seen tree node s) (he : node.index hash = some e)
    (block : CBlock) :
    Seen tree (node.setEntry hash { e with stored := some block, nTx := block.vtx.length })
      (s.receivedBlockTransactions tree hash) := by
  have hold := h.entries hash e he
  obtain ⟨hindex, htip, hfailed, hdata⟩ := @receivedBlockTransactions_sameView _ _ tree s hash
  refine h.setEntry (fun c => ?_) htip (fun c _ => (hfailed c).trans (storeData_failed c)) (fun c hc => ?_)
    ⟨⟨hold.nHeight, hold.nChainWork, hold.ancestors⟩, ?_, ?_, fun _ => rfl⟩
  · have hmem := (h.known hash).mpr ⟨e, he⟩
    rw [hindex]
    exact ⟨Or.inr, fun hc => hc.elim (fun heq => heq ▸ hmem) id⟩
  · rw [hdata, Bool.eq_iff_iff, storeData_haveData]
    simp [hc]
  · rw [hfailed, storeData_failed]
    exact hold.failed
  · rw [hdata, eq_comm]
    exact (storeData_haveData hash).mpr (Or.inl rfl)

/-- The answer to a block and the state it leaves are those of chain selection, where the
block can be written to disk. -/
theorem Seen.acceptBlock {call : BlockCall} (h : Seen tree node s) (hin : InTree env tree call.block.toCBlockHeader) :
    wp (acceptBlock tree (env.getHash call.block.toCBlockHeader) (arrivalOf env node call))
      (fun accepted t => (accepted = true ↔ (node.acceptBlock env call).1 = .ok ()) ∧
        Seen tree (node.acceptBlock env call).2 t)
      (fun e _ => e = .systemError) s := by
  have hheader := h.acceptBlockHeader hin call.minPowChecked call.now
  rw [ChainSelection.acceptBlock, wp_bind]
  refine wp_mono hheader (fun accepted t hheader => ?_) fun _ _ hfalse => hfalse.elim
  cases hnode : node.acceptBlockHeader env call.block.toCBlockHeader call.minPowChecked call.now with
  | error e =>
    rw [hnode] at hheader
    obtain ⟨rfl, ht⟩ := hheader
    simpa [Node.acceptBlock, hnode] using ht
  | ok result =>
    obtain ⟨entry, node'⟩ := result
    rw [hnode] at hheader
    obtain ⟨rfl, ht, hentry, hwork⟩ := hheader
    have hseen := ht.entries _ entry hentry
    refine wp_ite (fun _ => ?_) fun hno => absurd rfl hno
    simp only [Node.acceptBlock, hnode, arrivalOf]
    refine wp_ite (fun hdata => ?_) fun hdata => ?_
    · rw [← hseen.stored] at hdata
      simpa [hdata] using ht
    rw [← hseen.stored, Bool.not_eq_true] at hdata
    have hskips := ht.skipsUnrequested hseen hdata
    rw [hwork] at hskips
    simp only [hdata, Bool.false_eq_true, if_false]
    refine wp_ite (fun hskip => ?_) fun hskip => ?_
    · rw [← hskips] at hskip
      simpa [hskip] using ht
    rw [← hskips] at hskip
    simp only [hskip, Bool.false_eq_true, if_false, blockChecks]
    cases hcheck : Node.checkAcceptedBlock env call.block entry with
    | ok _ =>
      refine wp_fault_bind fun stop faults => wp_ite (fun _ => rfl) fun _ => ?_
      exact ⟨by simp, Seen.receivedBlockTransactions (ht.withFaults faults) hentry call.block⟩
    | error e =>
      dsimp only
      by_cases hmutated : e.result = .mutated
      · simpa [hmutated, Node.invalidBlockFound] using ht
      · rw [if_neg hmutated]
        exact ⟨by simp, ht.invalidBlockFound hentry hmutated⟩

end Byze.ChainSelection
