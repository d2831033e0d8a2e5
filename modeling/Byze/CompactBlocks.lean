import Byze.BlockDownload
import Byze.VerifyScript

/-! A block rebuilt from a compact one has no quantum tail. Where a tail is
required it goes no further, and the download of the block goes on. -/

namespace Byze
open PartiallyDownloadedBlock Downloads NetEffect
variable {env : NodeEnv} {map : BlockDownloadMap} {hash : Uint256} {peer : NodeId}

namespace BlockDownloadMap

def Keyed (env : NodeEnv) (map : BlockDownloadMap) : Prop :=
  ∀ entry ∈ map, ∀ p, entry.partialBlock = some p → p.header.isNull = false →
    env.getHash p.header = entry.hash

theorem Keyed.filter (h : map.Keyed env) (f : QueuedBlock → Bool) : Keyed env (List.filter f map) :=
  fun entry hentry => h entry (List.mem_filter.1 hentry).1

variable {p : PartiallyDownloadedBlock}

theorem Keyed.setPartialBlock (h : map.Keyed env)
    (hp : p.header.isNull = false → env.getHash p.header = hash) :
    (map.setPartialBlock hash peer p).Keyed env := by
  intro entry hentry q hq hnull
  obtain ⟨old, hold, rfl⟩ := List.mem_map.1 hentry
  by_cases hmatch : old.hash = hash ∧ old.nodeId = peer
  · simp only [if_pos hmatch, Option.some.injEq] at hq ⊢
    subst hq
    rw [hp hnull, hmatch.1]
  · simp only [if_neg hmatch] at hq ⊢
    exact h old hold q hq hnull

theorem Keyed.blockRequested (h : map.Keyed env) {p : Option PartiallyDownloadedBlock}
    (hp : p = none ∨ p = some .empty) : (map.blockRequested peer hash p).Keyed env := by
  simp only [BlockDownloadMap.blockRequested]
  split
  · exact h
  · intro entry hentry q hq hnull
    rcases List.mem_append.1 hentry with hold | hnew
    · exact h.filter _ entry hold q hq hnull
    · rw [List.mem_singleton.1 hnew] at hq
      rcases hp with rfl | rfl
      · cases hq
      · cases hq
        cases hnull

theorem Keyed.partialBlockOf (h : map.Keyed env)
    (hp : map.partialBlockOf hash peer = some p) (hnull : p.header.isNull = false) :
    env.getHash p.header = hash := by
  obtain ⟨entry, hentry, heq⟩ := List.exists_of_findSome?_eq_some hp
  obtain ⟨hmem, hhash⟩ := List.mem_filter.1 hentry
  split at heq
  · rw [h entry hmem p heq hnull]
    exact of_decide_eq_true hhash
  · cases heq

theorem firstInFlight_eq_false : map.firstInFlight hash peer = false ↔
    ∃ entry rest, map.equalRange hash = entry :: rest ∧ entry.nodeId ≠ peer := by
  cases hrange : map.equalRange hash with
  | nil => simp [firstInFlight, hrange]
  | cons entry rest => simp [firstInFlight, hrange]

theorem head_removeBlockRequest (h : map.firstInFlight hash peer = false) :
    ((map.removeBlockRequest hash (some peer)).equalRange hash).head? = (map.equalRange hash).head? := by
  obtain ⟨entry, rest, hrange, hpeer⟩ := firstInFlight_eq_false.1 h
  have hremoved : (map.removeBlockRequest hash (some peer)).equalRange hash =
      (map.equalRange hash).filter fun entry => entry.nodeId ≠ peer := by
    simp only [equalRange, removeBlockRequest, List.filter_filter]
    apply List.filter_congr
    intro entry _
    by_cases hhash : entry.hash = hash <;> simp [hhash]
  rw [hremoved, hrange, List.filter_cons_of_pos (by simpa using hpeer)]
  rfl

theorem equalRange_setPartialBlock (map : BlockDownloadMap) (hash : Uint256) (peer : NodeId)
    (p : PartiallyDownloadedBlock) :
    (map.setPartialBlock hash peer p).equalRange hash = (map.equalRange hash).map fun entry =>
        if entry.nodeId = peer then { entry with partialBlock := some p } else entry := by
  induction map with
  | nil => rfl
  | cons entry map ih =>
    by_cases hhash : entry.hash = hash <;> by_cases hpeer : entry.nodeId = peer <;>
      simp_all [equalRange, setPartialBlock]

theorem equalRange_blockRequested (map : BlockDownloadMap) (hash : Uint256) (peer : NodeId)
    (p : Option PartiallyDownloadedBlock) :
    (map.blockRequested peer hash p).equalRange hash =
      if map.requestedFrom hash peer then map.equalRange hash
      else map.equalRange hash ++ [⟨hash, peer, p⟩] := by
  simp only [blockRequested]
  split
  · rfl
  · rename_i hnone
    have hkeep : map.removeBlockRequest hash (some peer) = map := by
      apply List.filter_eq_self.2
      intro entry hentry
      by_contra hremoved
      apply hnone
      simp only [Option.all_some, Bool.not_eq_true', Bool.and_eq_false_iff, decide_eq_false_iff_not,
        not_or, not_not] at hremoved
      exact List.any_eq_true.2 ⟨entry, List.mem_filter.2 ⟨hentry, decide_eq_true hremoved.1⟩,
        decide_eq_true hremoved.2⟩
    rw [hkeep]
    simp [equalRange]

theorem firstInFlight_requested (map : BlockDownloadMap) (hash : Uint256) (peer : NodeId)
    (p : Option PartiallyDownloadedBlock) (q : PartiallyDownloadedBlock) :
    ((map.blockRequested peer hash p).setPartialBlock hash peer q).firstInFlight hash peer =
      map.firstInFlight hash peer := by
  simp only [firstInFlight, equalRange_setPartialBlock, equalRange_blockRequested]
  cases hrange : map.equalRange hash with
  | nil => simp [requestedFrom, hrange]
  | cons entry rest =>
    by_cases hpeer : entry.nodeId = peer <;> by_cases hreq : map.requestedFrom hash peer = true <;>
      simp [hpeer, hreq]

theorem head_requested (h : map.firstInFlight hash peer = false)
    (p : Option PartiallyDownloadedBlock) (q : PartiallyDownloadedBlock) :
    (((map.blockRequested peer hash p).setPartialBlock hash peer q).equalRange hash).head? =
      (map.equalRange hash).head? := by
  obtain ⟨entry, rest, hrange, hpeer⟩ := firstInFlight_eq_false.1 h
  rw [equalRange_setPartialBlock, equalRange_blockRequested, hrange]
  split <;> simp [hpeer]

end BlockDownloadMap

open BlockDownloadMap

/-- What a message about the block with this hash leads to: a block given to
validation has the tail it needs, and where a rebuilt one does not have it the
full block is asked for, or the first peer in line is still to send it. -/
structure Handled (env : NodeEnv) (map : BlockDownloadMap) (hash : Uint256) (peer : NodeId)
    (r : BlockDownloadMap × List NetEffect) : Prop where
  keyed : r.1.Keyed env
  validated : ∀ block force minPow, .processNewBlock block force minPow ∈ r.2 →
    missesQuantumTail env block = false
  rebuilt : ∀ p block, .reconstructed p block ∈ r.2 →
    p = peer ∧ env.getHash block.toCBlockHeader = hash ∧ (missesQuantumTail env block = true →
        if map.firstInFlight hash peer then .getData peer hash ∈ r.2
        else (r.1.equalRange hash).head? = (map.equalRange hash).head?)

def NetEffect.quiet : NetEffect → Bool
  | .reconstructed .. | .processNewBlock .. => false
  | _ => true

theorem Handled.of_quiet {r : BlockDownloadMap × List NetEffect} (hkeyed : r.1.Keyed env)
    (h : ∀ effect ∈ r.2, effect.quiet = true) : Handled env map hash peer r where
  keyed := hkeyed
  validated := fun _ _ _ hmem => by cases h _ hmem
  rebuilt := fun _ _ hmem => by cases h _ hmem

theorem processBlock_keyed (h : map.Keyed env) (view : ChainView) (block : CBlock)
    (force minPow : Bool) : (processBlock env view map block force minPow).1.Keyed env := by
  simp only [processBlock]
  split
  · exact h.filter _
  · exact h

theorem Handled.processed {r : BlockDownloadMap} (hkeyed : r.Keyed env) {block : CBlock}
    (hhash : env.getHash block.toCBlockHeader = hash) (htail : missesQuantumTail env block = false)
    (force minPow : Bool) :
    Handled env map hash peer (r, [.reconstructed peer block, .processNewBlock block force minPow]) where
  keyed := hkeyed
  validated := fun b f m hmem => by
    simp only [List.mem_cons, reduceCtorEq, processNewBlock.injEq, List.not_mem_nil,
      or_false, false_or] at hmem
    rw [hmem.1]
    exact htail
  rebuilt := fun p b hmem => by
    simp only [List.mem_cons, reduceCtorEq, reconstructed.injEq, List.not_mem_nil, or_false] at hmem
    obtain ⟨rfl, rfl⟩ := hmem
    refine ⟨rfl, hhash, fun hmisses => ?_⟩
    rw [htail] at hmisses
    cases hmisses

theorem Handled.fallback {r : BlockDownloadMap} {effects : List NetEffect} (hkeyed : r.Keyed env)
    {block : CBlock} (hhash : env.getHash block.toCBlockHeader = hash)
    (hquiet : ∀ effect ∈ effects, effect.quiet = true)
    (hnext : if map.firstInFlight hash peer then .getData peer hash ∈ effects
      else (r.equalRange hash).head? = (map.equalRange hash).head?) :
    Handled env map hash peer (r, .reconstructed peer block :: effects) where
  keyed := hkeyed
  validated := fun b f m hmem => by
    rcases List.mem_cons.1 hmem with heq | hmem
    · cases heq
    · cases hquiet _ hmem
  rebuilt := fun p b hmem => by
    rcases List.mem_cons.1 hmem with heq | hmem
    · cases heq
      refine ⟨rfl, hhash, fun _ => ?_⟩
      split
      · rename_i hfirst
        rw [if_pos hfirst] at hnext
        exact List.mem_cons_of_mem _ hnext
      · rename_i hfirst
        rwa [if_neg hfirst] at hnext
    · cases hquiet _ hmem

theorem processCompactBlockTxns_handled (h : map.Keyed env) (view : ChainView) (peer : NodeId)
    (hash : Uint256) (txn : List CTransaction) :
    Handled env map hash peer (processCompactBlockTxns env view map peer hash txn) := by
  have hremoved : (map.removeBlockRequest hash (some peer)).Keyed env := h.filter _
  have hkept : (map.setPartialBlock hash peer .empty).Keyed env :=
    h.setPartialBlock fun hnull => by cases hnull
  simp only [processCompactBlockTxns]
  cases hpartial : map.partialBlockOf hash peer with
  | none => exact .of_quiet h (by simp)
  | some p =>
    by_cases hnull : p.header.isNull = true
    · simp only [hnull, if_true]
      exact .of_quiet hremoved (by simp [quiet])
    simp only [hnull, Bool.false_eq_true, if_false]
    have hhash := h.partialBlockOf hpartial (by simpa using hnull)
    cases hfill : p.fillBlock env txn view.segwitActive with
    | invalid => exact .of_quiet hremoved (by simp [quiet])
    | failed =>
      dsimp only
      split
      · exact .of_quiet hkept (by simp [quiet])
      · exact .of_quiet hremoved (by simp)
    | ok block =>
      have hblock : env.getHash block.toCBlockHeader = hash := by
        rw [(fillBlock_ok hfill).1]
        exact hhash
      by_cases htail : missesQuantumTail env block = true
      · simp only [htail, if_true]
        split
        · rename_i hfirst
          exact .fallback hkept hblock (by simp [quiet]) (by simp [hfirst])
        · rename_i hfirst
          refine .fallback hremoved hblock (by simp) ?_
          rw [if_neg hfirst]
          exact head_removeBlockRequest (by simpa using hfirst)
      · simp only [htail, Bool.false_eq_true, if_false]
        exact .processed (processBlock_keyed hremoved view block true true) hblock
          (by simpa using htail) true true

theorem initData_empty_header (env : NodeEnv) (view : ChainView) (c : CBlockHeaderAndShortTxIDs)
    (hnull : (empty.initData env view.unevenBuckets view.pool view.extraTxn c).2.header.isNull = false) :
    (empty.initData env view.unevenBuckets view.pool view.extraTxn c).2.header = c.header := by
  rcases initData_header env view.unevenBuckets view.pool view.extraTxn .empty c with hsame | hheader
  · rw [hsame] at hnull
    cases hnull
  · exact hheader

theorem requestCompactBlock_handled (h : map.Keyed env) (view : ChainView) (peer : NodeId)
    (c : CBlockHeaderAndShortTxIDs) :
    Handled env map (env.getHash c.header) peer (requestCompactBlock env view map peer c) := by
  simp only [requestCompactBlock]
  split
  · exact .of_quiet h (by simp)
  have hheader := initData_empty_header env view c
  generalize empty.initData env view.unevenBuckets view.pool view.extraTxn c = r at hheader ⊢
  have hrequested : ((map.blockRequested peer (env.getHash c.header)
      (some .empty)).setPartialBlock (env.getHash c.header) peer r.2).Keyed env :=
    (h.blockRequested (.inr rfl)).setPartialBlock fun hnull => by rw [hheader hnull]
  cases r.1 with
  | invalid => exact .of_quiet (hrequested.filter _) (by simp [quiet])
  | failed =>
    dsimp only
    split
    · exact .of_quiet hrequested (by simp [quiet])
    · exact .of_quiet (hrequested.filter _) (by simp)
  | ok =>
    dsimp only
    split
    · have htxns := processCompactBlockTxns_handled hrequested view peer (env.getHash c.header) []
      refine ⟨htxns.keyed, htxns.validated, fun p block hmem => ?_⟩
      obtain ⟨hp, hhash, hnext⟩ := htxns.rebuilt p block hmem
      refine ⟨hp, hhash, fun htail => ?_⟩
      have hnext := hnext htail
      rw [firstInFlight_requested] at hnext
      split
      · rename_i hfirst
        rwa [if_pos hfirst] at hnext
      · rename_i hfirst
        rw [if_neg hfirst] at hnext
        rw [hnext, head_requested (by simpa using hfirst)]
    split
    · exact .of_quiet hrequested (by simp [quiet])
    split
    · exact .of_quiet hrequested (by simp [quiet])
    · exact .of_quiet (hrequested.filter _) (by simp)

theorem reconstructOptimistically_handled (h : map.Keyed env) (view : ChainView) (peer : NodeId)
    (c : CBlockHeaderAndShortTxIDs) :
    Handled env map (env.getHash c.header) peer (reconstructOptimistically env view map peer c) := by
  simp only [reconstructOptimistically]
  split
  · exact .of_quiet h (by simp)
  have hheader := initData_empty_header env view c
  generalize empty.initData env view.unevenBuckets view.pool view.extraTxn c = r at hheader ⊢
  cases hfill : r.2.fillBlock env [] view.segwitActive with
  | invalid => exact .of_quiet h (by simp)
  | failed => exact .of_quiet h (by simp)
  | ok block =>
    obtain ⟨hblock, -, hnull⟩ := fillBlock_ok hfill
    have hhash : env.getHash block.toCBlockHeader = env.getHash c.header := by
      rw [hblock, hheader hnull]
    by_cases htail : missesQuantumTail env block = true
    · simp only [htail]
      refine .fallback h hhash ?_ ?_
      · intro effect hmem
        split at hmem
        · rw [List.mem_singleton.1 hmem]
          rfl
        · cases hmem
      · split
        · exact List.mem_singleton_self _
        · rfl
    · simp only [htail]
      have hprocessed := processBlock_keyed h view block true true
      refine .processed ?_ hhash (by simpa using htail) true true
      split
      · exact hprocessed.filter _
      · exact hprocessed

theorem fetchBlocks_keyed (h : map.Keyed env) (peer : NodeId) (hashes : List Uint256) :
    (fetchBlocks peer map hashes).1.Keyed env := by
  induction hashes generalizing map with
  | nil => exact h
  | cons hash hashes ih =>
    simp only [fetchBlocks]
    split
    · exact h
    · exact ih (h.blockRequested (.inl rfl))

theorem headersDirectFetchBlocks_handled (h : map.Keyed env) (view : ChainView) (hash : Uint256)
    (peer : NodeId) : Handled env map hash peer (headersDirectFetchBlocks view map peer) := by
  simp only [headersDirectFetchBlocks]
  split
  all_goals
    refine .of_quiet (fetchBlocks_keyed h _ _) fun effect hmem => ?_
    obtain ⟨_, -, rfl⟩ := List.mem_map.1 hmem
    rfl

theorem processCmpctBlock_handled (h : map.Keyed env) (view : ChainView) (peer : NodeId)
    (c : CBlockHeaderAndShortTxIDs) :
    Handled env map (env.getHash c.header) peer (processCmpctBlock env view map peer c) := by
  simp only [processCmpctBlock]
  split
  · exact .of_quiet h (by simp)
  split
  · refine .of_quiet h ?_
    split <;> simp [quiet]
  split
  · exact .of_quiet h (by simp)
  split
  · exact .of_quiet h (by simp [quiet])
  split
  · exact .of_quiet h (by simp)
  split
  · refine .of_quiet h ?_
    split <;> simp [quiet]
  split
  · exact .of_quiet h (by simp)
  split
  · split
    · exact requestCompactBlock_handled h view peer c
    · exact reconstructOptimistically_handled h view peer c
  split
  · exact .of_quiet h (by simp [quiet])
  · exact headersDirectFetchBlocks_handled h view _ peer

def PeerMessage.isBlock (m : PeerMessage) : Bool :=
  match m.message with
  | .block _ => true
  | _ => false

theorem processMessage_handled (h : map.Keyed env) {m : PeerMessage} (hm : m.isBlock = false) :
    ∃ hash, Handled env map hash m.peer (processMessage env map m) := by
  obtain ⟨peer, message, view⟩ := m
  cases message with
  | cmpctblock c => exact ⟨_, processCmpctBlock_handled h view peer c⟩
  | blocktxn hash txn =>
    refine ⟨hash, ?_⟩
    simp only [processMessage, processBlockTxn]
    split
    · exact .of_quiet h (by simp)
    · exact processCompactBlockTxns_handled h view peer hash txn
  | block block => cases hm
  | fetch => exact ⟨Uint256.zero, headersDirectFetchBlocks_handled h view _ peer⟩
  | disconnect => exact ⟨Uint256.zero, .of_quiet (h.filter _) (by simp [processMessage])⟩

theorem processBlockMessage_spec (h : map.Keyed env) (view : ChainView) (peer : NodeId) (block : CBlock) :
    (processBlockMessage env view map peer block).1.Keyed env ∧
      ∀ p b, .reconstructed p b ∉ (processBlockMessage env view map peer block).2 := by
  simp only [processBlockMessage]
  split
  · exact ⟨h, by simp⟩
  split
  · exact ⟨h.filter _, by simp⟩
  · exact ⟨processBlock_keyed (h.filter _) view block _ _, by simp [processBlock]⟩

theorem processMessage_block {m : PeerMessage} (hm : m.isBlock = true) :
    ∃ block, processMessage env map m = processBlockMessage env m.view map m.peer block := by
  obtain ⟨peer, message, view⟩ := m
  cases message with
  | block block => exact ⟨block, rfl⟩
  | _ => cases hm

theorem processMessage_keyed (h : map.Keyed env) (m : PeerMessage) :
    (processMessage env map m).1.Keyed env := by
  cases hm : m.isBlock with
  | false =>
    obtain ⟨hash, hhandled⟩ := processMessage_handled h hm
    exact hhandled.keyed
  | true =>
    obtain ⟨block, heq⟩ := processMessage_block hm
    rw [heq]
    exact (processBlockMessage_spec h m.view m.peer block).1

theorem Downloads.run_keyed (env : NodeEnv) (messages : List PeerMessage) :
    (run env messages).map.Keyed env := by
  induction messages using List.reverseRecOn with
  | nil => exact fun entry hentry => by cases hentry
  | append_singleton messages m ih =>
    simp only [run, List.foldl_append]
    exact processMessage_keyed ih m

/-- In every run, a block rebuilt without a tail that is required is not given
to validation. The peer is asked for the full block when nobody was asked
before it, and else a peer that was is still to send the block. -/
theorem rebuilt_without_tail_stays_in_download (env : NodeEnv) (messages : List PeerMessage)
    (m : PeerMessage) :
    (m.isBlock = false → ∀ block force minPow, .processNewBlock block force minPow ∈
        (processMessage env (run env messages).map m).2 →
      missesQuantumTail env block = false) ∧
    ∀ peer block, .reconstructed peer block ∈ (processMessage env (run env messages).map m).2 →
      missesQuantumTail env block = true →
      if (run env messages).map.firstInFlight (env.getHash block.toCBlockHeader) peer then
        (peer, env.getHash block.toCBlockHeader) ∈ ((run env messages).receive env m).fullRequests
      else ∃ entry ∈ ((run env messages).receive env m).map,
        entry.hash = env.getHash block.toCBlockHeader ∧ entry.nodeId ≠ peer := by
  have hkeyed := run_keyed env messages
  refine ⟨fun hm => ?_, fun peer block hmem htail => ?_⟩
  · obtain ⟨hash, hhandled⟩ := processMessage_handled hkeyed hm
    exact hhandled.validated
  cases hm : m.isBlock with
  | true =>
    obtain ⟨received, heq⟩ := processMessage_block hm
    rw [heq] at hmem
    exact absurd hmem ((processBlockMessage_spec hkeyed m.view m.peer received).2 peer block)
  | false =>
    obtain ⟨hash, hhandled⟩ := processMessage_handled hkeyed hm
    obtain ⟨rfl, rfl, hnext⟩ := hhandled.rebuilt peer block hmem
    have hnext := hnext htail
    split
    · rename_i hfirst
      rw [if_pos hfirst] at hnext
      exact List.mem_append_right _ (List.mem_filterMap.2 ⟨_, hnext, rfl⟩)
    · rename_i hfirst
      rw [if_neg hfirst] at hnext
      obtain ⟨entry, rest, hrange, hpeer⟩ := firstInFlight_eq_false.1 (by simpa using hfirst)
      rw [hrange] at hnext
      obtain ⟨hentry, hhash⟩ := List.mem_filter.1 (List.mem_of_mem_head? hnext)
      exact ⟨entry, hentry, of_decide_eq_true hhash, hpeer⟩

def relayEnv : NodeEnv where
  hashes := sampleHashes
  oqs := sampleVerify
  getHash _ := Uint256.zero
  chain := .main
  hashGenesisBlock := Uint256.fill 1
  enforceQuantumBlockSigs := false
  signetBlocks := false
  checkSignetBlockSolution _ _ := true
  bip34Height := 1
  bip65Height := 1
  bip66Height := 1
  csvHeight := 1
  segwitHeight := 1

def relayView : ChainView where
  loadingBlocks := false
  initialBlockDownload := false
  prevKnown := true
  enoughWork := true
  headerValid := true
  haveData := false
  moreWorkThanTip := true
  hadTransactions := false
  canDirectFetch := true
  nearTip := true
  segwitActive := true
  newBlock := false
  validTransactions := false
  blocksToFetch := []
  fetchCompact := false
  unevenBuckets _ := false
  pool := []
  extraTxn := []
  isInbound _ := false
  highBandwidthTo _ := true

def relayCoinbase : CTransaction :=
  ⟨1, [⟨⟨Uint256.zero, 0xffffffff⟩, [0x51, 0x51], 0xffffffff, []⟩], [⟨50 * coin, [0x51]⟩], 0⟩

def relayHeader : CBlockHeader := ⟨4, Uint256.fill 1, Uint256.fill 1, 1777343705, 0x207fffff, 1⟩

def shortIdMessage : PeerMessage :=
  ⟨1, .cmpctblock ⟨relayHeader, [7], [], fun _ => 0⟩, relayView⟩

def prefilledMessage : PeerMessage :=
  ⟨2, .cmpctblock ⟨relayHeader, [], [⟨0, relayCoinbase⟩], fun _ => 0⟩, relayView⟩

/-- The second of two peers has its block rebuilt while the first is asked for
a transaction: nobody is asked for the full block. -/
theorem prefilled_after_shortId_requests_nothing : .reconstructed 2 ⟨relayHeader, [relayCoinbase], .null⟩ ∈
      (processMessage relayEnv (run relayEnv [shortIdMessage]).map prefilledMessage).2 ∧
    missesQuantumTail relayEnv ⟨relayHeader, [relayCoinbase], .null⟩ = true ∧
    ((run relayEnv [shortIdMessage]).receive relayEnv prefilledMessage).fullRequests = [] := by
  decide +kernel

theorem prefilled_after_shortId_in_download :
    ∃ entry ∈ ((run relayEnv [shortIdMessage]).receive relayEnv prefilledMessage).map,
      entry.hash = Uint256.zero ∧ entry.nodeId ≠ 2 :=
  (rebuilt_without_tail_stays_in_download relayEnv [shortIdMessage] prefilledMessage).2 2
    ⟨relayHeader, [relayCoinbase], .null⟩ (by decide +kernel) (by decide)

end Byze
