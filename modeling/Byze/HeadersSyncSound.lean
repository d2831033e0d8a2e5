import Byze.HeadersSync

/-! Whatever batches a peer sends, the headers that a sync returns are those it
received in the redownload phase, and they are a chain from its start. -/

namespace Byze
open HeadersSyncState SyncLog
variable {env : SyncEnv}

/-- Every header names the hash of the one before it, and its target may follow
the target of that one. -/
def ConnectedFrom (env : SyncEnv) : CBlockHeader → Nat → List CBlockHeader → Prop
  | _, _, [] => True
  | prev, height, header :: headers =>
    header.hashPrevBlock = env.getHash prev ∧
    permittedDifficultyTransition (consensusParams env.chain) (height + 1) prev.nBits.toNat
      header.nBits.toNat = true ∧
    ConnectedFrom env header (height + 1) headers

def tipOf (prev : CBlockHeader) (headers : List CBlockHeader) : CBlockHeader :=
  headers.getLast?.getD prev

def commitBits (env : SyncEnv) : Nat → List CBlockHeader → List Bool
  | _, [] => []
  | height, header :: headers =>
    if commits env (height + 1) then commitment env header :: commitBits env (height + 1) headers
    else commitBits env (height + 1) headers

def SyncEnv.chainWork (env : SyncEnv) (headers : List CBlockHeader) : Nat :=
  env.chainStart.nChainWork + (headers.map fun header => getBlockProof header.nBits.toNat).sum

/-- At every height that has a bit, the header of the first phase has the bit
of the one received again. -/
def CommitmentsMatch (env : SyncEnv) (presync redownload : List CBlockHeader) : Prop :=
  ∀ i header, redownload[i]? = some header → commits env (env.chainStart.nHeight + i + 1) = true →
    presync[i]?.map (commitment env) = some (commitment env header)

@[simp] theorem tipOf_nil (prev : CBlockHeader) : tipOf prev [] = prev := rfl

@[simp] theorem tipOf_cons (prev header : CBlockHeader) (headers : List CBlockHeader) :
    tipOf prev (header :: headers) = tipOf header headers := by
  simp [tipOf, List.getLast?_cons]

@[simp] theorem tipOf_concat (prev header : CBlockHeader) (headers : List CBlockHeader) :
    tipOf prev (headers ++ [header]) = header := by
  simp [tipOf]

theorem tipOf_append (prev : CBlockHeader) (headers more : List CBlockHeader) :
    tipOf prev (headers ++ more) = tipOf (tipOf prev headers) more := by
  induction headers generalizing prev with
  | nil => rfl
  | cons header headers ih => simp [ih]

theorem connectedFrom_append (prev : CBlockHeader) (height : Nat) (headers more : List CBlockHeader) :
    ConnectedFrom env prev height (headers ++ more) ↔ ConnectedFrom env prev height headers ∧
        ConnectedFrom env (tipOf prev headers) (height + headers.length) more := by
  induction headers generalizing prev height with
  | nil => simp [ConnectedFrom]
  | cons header headers ih =>
    simp only [List.cons_append, ConnectedFrom, ih, tipOf_cons, List.length_cons, and_assoc]
    rw [Nat.add_right_comm height 1, Nat.add_assoc height]

theorem commitBits_append (height : Nat) (headers more : List CBlockHeader) :
    commitBits env height (headers ++ more) =
      commitBits env height headers ++ commitBits env (height + headers.length) more := by
  induction headers generalizing height with
  | nil => rfl
  | cons header headers ih =>
    have hlen : height + 1 + headers.length = height + (header :: headers).length := by
      simp only [List.length_cons]
      omega
    simp only [List.cons_append, commitBits, ih, hlen]
    split <;> rfl

theorem commitment_mem_commitBits {height i : Nat} {headers : List CBlockHeader}
    {header : CBlockHeader} (hi : headers[i]? = some header)
    (hc : commits env (height + i + 1) = true) : commitment env header ∈ commitBits env height headers := by
  induction headers generalizing height i with
  | nil => simp at hi
  | cons first rest ih =>
    cases i with
    | zero =>
      simp only [List.getElem?_cons_zero, Option.some.injEq] at hi
      simp [commitBits, hc, hi]
    | succ i =>
      have htail := ih (by simpa using hi) (by rwa [Nat.add_right_comm height 1 i])
      simp only [commitBits]
      split
      · exact List.mem_cons_of_mem _ htail
      · exact htail

theorem commitBits_prefix_match {height : Nat} {redownload presync : List CBlockHeader}
    (h : commitBits env height redownload <+: commitBits env height presync) {i : Nat}
    {header : CBlockHeader} (hi : redownload[i]? = some header)
    (hc : commits env (height + i + 1) = true) :
    presync[i]?.map (commitment env) = some (commitment env header) := by
  induction redownload generalizing height presync i with
  | nil => simp at hi
  | cons first rest ih =>
    cases presync with
    | nil =>
      -- No bit was stored, so none of the heights has one.
      have hmem := commitment_mem_commitBits hi hc
      rw [List.prefix_nil.1 h] at hmem
      exact absurd hmem List.not_mem_nil
    | cons hp presync =>
      by_cases hfirst : commits env (height + 1) = true
      · simp only [commitBits, hfirst, if_true, List.cons_prefix_cons] at h
        cases i with
        | zero => simp_all
        | succ i => exact ih h.2 (by simpa using hi) (by rwa [Nat.add_right_comm height 1 i])
      · simp only [commitBits, hfirst] at h
        cases i with
        | zero => exact absurd hc hfirst
        | succ i => exact ih h (by simpa using hi) (by rwa [Nat.add_right_comm height 1 i])

theorem SyncEnv.chainWork_concat (headers : List CBlockHeader) (header : CBlockHeader) :
    env.chainWork (headers ++ [header]) = env.chainWork headers + getBlockProof header.nBits.toNat := by
  simp [SyncEnv.chainWork, Nat.add_assoc]

theorem redownloadBufferSize_pos (chain : ChainType) :
    0 < (headersSyncParams chain).redownloadBufferSize := by
  cases chain <;> simp [headersSyncParams]

theorem getFullHeader_ofHeader (header : CBlockHeader) :
    (CompressedHeader.ofHeader header).getFullHeader header.hashPrevBlock = header := rfl

structure Presyncing (env : SyncEnv) (presync : List CBlockHeader) (st : HeadersSyncState) : Prop where
  phase : st.downloadState = .presync
  release : st.processAllRemainingHeaders = false
  height : st.currentHeight = env.chainStart.nHeight + presync.length
  bits : st.headerCommitments = commitBits env env.chainStart.nHeight presync

/-- The second phase: the headers received in it are those returned and then
those in the buffer. -/
structure Redownloading (env : SyncEnv) (presync received returned buffered : List CBlockHeader)
    (st : HeadersSyncState) : Prop where
  phase : st.downloadState = .redownload
  split : received = returned ++ buffered
  buffer : st.redownloadedHeaders = buffered.map CompressedHeader.ofHeader
  connected : ConnectedFrom env env.chainStart.header env.chainStart.nHeight received
  lastHeight : st.redownloadBufferLastHeight = env.chainStart.nHeight + received.length
  lastHash : st.redownloadBufferLastHash = env.getHash (tipOf env.chainStart.header received)
  firstPrevHash : st.redownloadBufferFirstPrevHash = env.getHash (tipOf env.chainStart.header returned)
  work : st.redownloadChainWork ≤ env.chainWork received
  started : buffered = [] → received = []
  released : st.processAllRemainingHeaders = true → env.minimumRequiredWork ≤ env.chainWork received
  checked : st.processAllRemainingHeaders = false →
    commitBits env env.chainStart.nHeight received ++ st.headerCommitments =
      commitBits env env.chainStart.nHeight presync

theorem addWork_le (a b : Nat) : addWork a b ≤ a + b := Nat.mod_le _ _

variable {st : HeadersSyncState}

theorem validateAndProcessSingleHeader_eq {header : CBlockHeader}
    (hok : (validateAndProcessSingleHeader env st header).1 = true) :
    (validateAndProcessSingleHeader env st header).2 = { st with
        headerCommitments := st.headerCommitments ++
          (if commits env (st.currentHeight + 1) then [commitment env header] else [])
        currentChainWork := addWork st.currentChainWork (getBlockProof header.nBits.toNat)
        lastHeaderReceived := header
        currentHeight := st.currentHeight + 1 } := by
  revert hok
  by_cases hc : commits env (st.currentHeight + 1) = true
  · simp only [validateAndProcessSingleHeader]
    split
    · intro hok
      cases hok
    · split
      · intro hok
        cases hok
      · exact fun _ => rfl
  · simp only [validateAndProcessSingleHeader, hc, Bool.false_eq_true, if_false, List.append_nil]
    split
    · intro hok
      cases hok
    · exact fun _ => rfl

variable {presync headers : List CBlockHeader} {log : SyncLog}

theorem Presyncing.header (h : Presyncing env presync st) {header : CBlockHeader}
    (hok : (validateAndProcessSingleHeader env st header).1 = true) :
    Presyncing env (presync ++ [header]) (validateAndProcessSingleHeader env st header).2 := by
  rw [validateAndProcessSingleHeader_eq hok]
  refine ⟨h.phase, h.release, ?_, ?_⟩
  · simp only [h.height, List.length_append, List.length_singleton]
    omega
  · simp [h.height, h.bits, commitBits_append, commitBits]

variable {received returned buffered : List CBlockHeader}

theorem Redownloading.previous (h : Redownloading env presync received returned buffered st) :
    previousNBits env st = (tipOf env.chainStart.header received).nBits := by
  rw [previousNBits, h.buffer]
  rcases List.eq_nil_or_concat buffered with hnil | ⟨init, last, hlast⟩
  · have hreceived := h.started hnil
    subst hnil hreceived
    rfl
  · rw [h.split, hlast, List.concat_eq_append, ← List.append_assoc, tipOf_concat]
    simp [CompressedHeader.ofHeader]

theorem validateAndStoreRedownloadedHeader_cases {header : CBlockHeader}
    (hok : (validateAndStoreRedownloadedHeader env st header).1 = true) :
    header.hashPrevBlock = st.redownloadBufferLastHash ∧
    permittedDifficultyTransition (consensusParams env.chain) (st.redownloadBufferLastHeight + 1)
      (previousNBits env st).toNat header.nBits.toNat = true ∧
    ∃ bits all, (validateAndStoreRedownloadedHeader env st header).2 = { st with
          headerCommitments := bits
          redownloadChainWork := addWork st.redownloadChainWork (getBlockProof header.nBits.toNat)
          processAllRemainingHeaders := all
          redownloadedHeaders := st.redownloadedHeaders ++ [CompressedHeader.ofHeader header]
          redownloadBufferLastHeight := st.redownloadBufferLastHeight + 1
          redownloadBufferLastHash := env.getHash header } ∧
      all = (st.processAllRemainingHeaders || decide (env.minimumRequiredWork ≤
        addWork st.redownloadChainWork (getBlockProof header.nBits.toNat))) ∧
      (all = false → st.headerCommitments =
        (if commits env (st.redownloadBufferLastHeight + 1) then [commitment env header] else []) ++
          bits) := by
  revert hok
  simp only [validateAndStoreRedownloadedHeader]
  split
  · intro hok
    cases hok
  rename_i hprev
  split
  · intro hok
    cases hok
  rename_i hpermitted
  intro hok
  refine ⟨not_not.1 hprev, by simpa using hpermitted, ?_⟩
  revert hok
  split
  · rename_i hcommit
    simp only [Bool.and_eq_true, Bool.not_eq_true'] at hcommit
    split
    · intro hok
      cases hok
    · rename_i expected rest hbits
      split
      · intro hok
        cases hok
      · rename_i hmatch
        intro _
        refine ⟨rest, _, rfl, rfl, fun _ => ?_⟩
        simp only [hcommit.2, if_true, List.singleton_append]
        rw [not_not.1 hmatch]
        exact hbits
  · rename_i hcommit
    intro _
    refine ⟨st.headerCommitments, _, rfl, rfl, fun hall => ?_⟩
    have hnone : commits env (st.redownloadBufferLastHeight + 1) = false := by
      simpa only [hall, Bool.not_false, Bool.true_and, Bool.not_eq_true] using hcommit
    rw [hnone]
    rfl

theorem Redownloading.header (h : Redownloading env presync received returned buffered st)
    {header : CBlockHeader} (hok : (validateAndStoreRedownloadedHeader env st header).1 = true) :
    Redownloading env presync (received ++ [header]) returned (buffered ++ [header])
      (validateAndStoreRedownloadedHeader env st header).2 := by
  obtain ⟨hprev, hpermitted, bits, all, hst, hall, hbits⟩ :=
    validateAndStoreRedownloadedHeader_cases hok
  rw [h.lastHash] at hprev
  rw [h.previous, h.lastHeight] at hpermitted
  have hwork : addWork st.redownloadChainWork (getBlockProof header.nBits.toNat) ≤
      env.chainWork (received ++ [header]) := by
    rw [SyncEnv.chainWork_concat]
    exact (addWork_le _ _).trans (Nat.add_le_add_right h.work _)
  rw [hst]
  refine ⟨h.phase, ?_, ?_, ?_, ?_, ?_, h.firstPrevHash, hwork, ?_, ?_, ?_⟩
  · simp [h.split]
  · simp [h.buffer]
  · exact (connectedFrom_append _ _ _ _).2 ⟨h.connected, hprev, hpermitted, trivial⟩
  · simp only [h.lastHeight, List.length_append, List.length_singleton]
    omega
  · simp
  · intro hnil
    simp at hnil
  · intro hreleased
    rcases Bool.or_eq_true_iff.1 (hall.symm.trans hreleased) with hbefore | hnow
    · rw [SyncEnv.chainWork_concat]
      exact (h.released hbefore).trans (Nat.le_add_right _ _)
    · exact (of_decide_eq_true hnow).trans hwork
  · intro hchecked
    have hbefore := (Bool.or_eq_false_iff.1 (hall.symm.trans hchecked)).1
    rw [← h.checked hbefore, hbits hchecked, h.lastHeight, commitBits_append]
    simp [commitBits]

theorem processEach_rule {P : List CBlockHeader → HeadersSyncState → Prop}
    {f : HeadersSyncState → CBlockHeader → Bool × HeadersSyncState}
    (hstep : ∀ done st header, P done st → (f st header).1 = true → P (done ++ [header]) (f st header).2)
    {done headers : List CBlockHeader} (h : P done st) (hok : (processEach f st headers).1 = true) :
    P (done ++ headers) (processEach f st headers).2 := by
  induction headers generalizing done st with
  | nil => simpa [processEach] using h
  | cons header headers ih =>
    simp only [processEach] at hok ⊢
    split at hok
    · rename_i hheader
      rw [if_pos hheader]
      have := ih (hstep done st header h hheader) hok
      rwa [List.append_assoc] at this
    · cases hok

theorem Presyncing.batch (h : Presyncing env presync st)
    (hok : (processEach (validateAndProcessSingleHeader env) st headers).1 = true) :
    Presyncing env (presync ++ headers) (processEach (validateAndProcessSingleHeader env) st headers).2 :=
  processEach_rule (fun _ _ _ h hheader => h.header hheader) h hok

theorem Redownloading.batch (h : Redownloading env presync received returned buffered st)
    (hok : (processEach (validateAndStoreRedownloadedHeader env) st headers).1 = true) :
    Redownloading env presync (received ++ headers) returned (buffered ++ headers)
      (processEach (validateAndStoreRedownloadedHeader env) st headers).2 := by
  have hrun := processEach_rule
    (P := fun done => Redownloading env presync (received ++ done) returned (buffered ++ done))
    (fun done st header h hheader => by simpa using h.header hheader)
    (show Redownloading env presync (received ++ []) returned (buffered ++ []) st by simpa using h) hok
  simpa using hrun

theorem Presyncing.startRedownload (h : Presyncing env presync st) :
    Redownloading env presync [] [] [] (startRedownload env st) where
  phase := rfl
  split := rfl
  buffer := rfl
  connected := trivial
  lastHeight := rfl
  lastHash := rfl
  firstPrevHash := rfl
  work := Nat.le_add_right _ _
  started := fun _ => rfl
  released := fun hreleased => by
    have : st.processAllRemainingHeaders = true := hreleased
    rw [h.release] at this
    cases this
  checked := fun _ => h.bits

theorem popHeaders_spec (all : Bool) {prev : CBlockHeader} {height : Nat} (hconnected : ConnectedFrom env prev height buffered) :
    ∃ out rest, buffered = out ++ rest ∧ (rest = [] → buffered = [] ∨ all = true) ∧
      popHeaders env all (buffered.map CompressedHeader.ofHeader) (env.getHash prev) =
        (out, rest.map CompressedHeader.ofHeader, env.getHash (tipOf prev out)) := by
  induction buffered generalizing prev height with
  | nil => exact ⟨[], [], rfl, fun _ => .inl rfl, rfl⟩
  | cons header headers ih =>
    obtain ⟨hprev, -, hrest⟩ := hconnected
    obtain ⟨out, rest, hsplit, hempty, hpop⟩ := ih hrest
    simp only [List.map_cons, popHeaders]
    split
    · rename_i hready
      refine ⟨header :: out, rest, by rw [hsplit]; rfl, fun hnil => .inr ?_, ?_⟩
      · rcases hempty hnil with hnone | hall
        · -- The buffer had one header only, which is not more than it holds.
          have hpos := redownloadBufferSize_pos env.chain
          simp only [hnone, List.map_nil, List.length_cons, List.length_nil, Bool.or_eq_true,
            decide_eq_true_eq] at hready
          rcases hready with hlong | hall
          · omega
          · exact hall
        · exact hall
      · simp [← hprev, getFullHeader_ofHeader, hpop]
    · exact ⟨[], header :: headers, rfl, fun hnil => .inl hnil, rfl⟩

section
variable (h : Redownloading env presync received returned buffered st)
include h

theorem Redownloading.pop : ∃ rest, received = returned ++ (popHeadersReadyForAcceptance env st).1 ++ rest ∧
      (popHeadersReadyForAcceptance env st).2.redownloadedHeaders = rest.map CompressedHeader.ofHeader ∧
      (rest = [] → (popHeadersReadyForAcceptance env st).2.processAllRemainingHeaders = false →
        received = []) ∧
      ((rest = [] → received = []) →
        Redownloading env presync received (returned ++ (popHeadersReadyForAcceptance env st).1) rest
          (popHeadersReadyForAcceptance env st).2) := by
  have hconnected := h.connected
  rw [h.split, connectedFrom_append] at hconnected
  obtain ⟨out, rest, hsplit, hempty, hpop⟩ :=
    popHeaders_spec st.processAllRemainingHeaders hconnected.2
  have hreceived : received = returned ++ out ++ rest := by
    simp [h.split, hsplit]
  simp only [popHeadersReadyForAcceptance, h.buffer, h.firstPrevHash, hpop]
  refine ⟨rest, hreceived, rfl, fun hrest hall => ?_, fun hstarted => ?_⟩
  · rcases hempty hrest with hbuffered | hreleased
    · exact h.started hbuffered
    · rw [hall] at hreleased
      cases hreleased
  · exact ⟨h.phase, hreceived, rfl, h.connected, h.lastHeight, h.lastHash, by rw [tipOf_append],
      h.work, hstarted, h.released, h.checked⟩

theorem Redownloading.released_or_match :
    env.minimumRequiredWork ≤ env.chainWork received ∨ CommitmentsMatch env presync received := by
  cases hall : st.processAllRemainingHeaders with
  | true => exact .inl (h.released hall)
  | false => exact .inr fun i header => commitBits_prefix_match ⟨_, h.checked hall⟩

theorem processRedownload_spec (headers : List CBlockHeader) (full : Bool) :
    processRedownload env st headers full = (⟨[], false, false⟩, (processRedownload env st headers full).2) ∨
      ∃ rest, received ++ headers =
          returned ++ (processRedownload env st headers full).1.powValidatedHeaders ++ rest ∧
        ConnectedFrom env env.chainStart.header env.chainStart.nHeight (received ++ headers) ∧
        (env.minimumRequiredWork ≤ env.chainWork (received ++ headers) ∨
          CommitmentsMatch env presync (received ++ headers)) ∧
        ((processRedownload env st headers full).1.requestMore = true →
          Redownloading env presync (received ++ headers)
            (returned ++ (processRedownload env st headers full).1.powValidatedHeaders) rest
            (processRedownload env st headers full).2) := by
  simp only [processRedownload]
  split
  · rename_i hok
    have hbatch := h.batch hok
    obtain ⟨rest, hreceived, hbuffer, hempty, hpop⟩ := hbatch.pop
    refine .inr ⟨rest, hreceived, hbatch.connected, hbatch.released_or_match, fun hmore => hpop ?_⟩
    intro hrest
    apply hempty hrest
    simpa [hbuffer, hrest] using (Bool.and_eq_true_iff.1 hmore).1
  · exact .inl rfl
end

inductive SyncLog.Sound (env : SyncEnv) (log : SyncLog) : Prop
  | presync (h : Presyncing env log.presync log.state) (hredownload : log.redownload = [])
      (hreturned : log.returned = [])
  | redownload (buffered : List CBlockHeader)
      (h : Redownloading env log.presync log.redownload log.returned buffered log.state)
  | final (hphase : log.state.downloadState = .final) (hpre : log.returned <+: log.redownload)
      (hconnected : ConnectedFrom env env.chainStart.header env.chainStart.nHeight log.returned)

theorem SyncLog.sound_initial (env : SyncEnv) : (initial env).Sound env :=
  .presync ⟨rfl, rfl, rfl, rfl⟩ rfl rfl

theorem SyncLog.Sound.returned_prefix (h : log.Sound env) : log.returned <+: log.redownload := by
  cases h with
  | presync _ hredownload hreturned => rw [hredownload, hreturned]
  | redownload buffered h => exact ⟨buffered, h.split.symm⟩
  | final _ hpre _ => exact hpre

theorem SyncLog.Sound.connected (h : log.Sound env) :
    ConnectedFrom env env.chainStart.header env.chainStart.nHeight log.returned := by
  cases h with
  | presync _ _ hreturned => rw [hreturned]; trivial
  | redownload buffered h =>
    have hconnected := h.connected
    rw [h.split, connectedFrom_append] at hconnected
    exact hconnected.1
  | final _ _ hconnected => exact hconnected

theorem processNextHeaders_nil (st : HeadersSyncState) (full : Bool) :
    processNextHeaders env st [] full = (⟨[], false, false⟩, st) := rfl

theorem processNextHeaders_final (h : st.downloadState = .final) (headers : List CBlockHeader) (full : Bool) :
    processNextHeaders env st headers full = (⟨[], false, false⟩, st) := by
  simp only [processNextHeaders, h]
  split <;> rfl

theorem finish_cases (r : ProcessingResult × HeadersSyncState) :
    processNextHeaders.finish r = (r.1, r.2.finalize) ∨
      processNextHeaders.finish r = r ∧ r.1.success = true ∧ r.1.requestMore = true := by
  simp only [processNextHeaders.finish]
  split
  · exact .inl rfl
  · rename_i hmore
    simp only [Bool.not_eq_true', Bool.not_eq_false, Bool.and_eq_true] at hmore
    exact .inr ⟨rfl, hmore⟩

theorem finish_failed (st : HeadersSyncState) :
    processNextHeaders.finish (⟨[], false, false⟩, st) = (⟨[], false, false⟩, st.finalize) := rfl

theorem validateAndStoreHeadersCommitments_spec (h : Presyncing env presync st)
    (hok : (validateAndStoreHeadersCommitments env st headers).1 = true) :
    Presyncing env (presync ++ headers) (validateAndStoreHeadersCommitments env st headers).2 ∨
      Redownloading env (presync ++ headers) [] [] []
        (validateAndStoreHeadersCommitments env st headers).2 := by
  cases headers with
  | nil =>
    rw [List.append_nil]
    exact .inl h
  | cons first rest =>
    revert hok
    simp only [validateAndStoreHeadersCommitments]
    split
    · intro hok
      cases hok
    split
    · intro hok
      cases hok
    rename_i hbatch
    have hpresync := h.batch (by simpa using hbatch)
    split
    · exact fun _ => .inr hpresync.startRedownload
    · exact fun _ => .inl hpresync

theorem SyncLog.Sound.receive (h : log.Sound env) (message : HeadersMessage) :
    (log.receive env message).Sound env ∧
      ((processNextHeaders env log.state message.headers message.full).1.powValidatedHeaders ≠ [] →
        env.minimumRequiredWork ≤ env.chainWork (log.receive env message).redownload ∨
        CommitmentsMatch env (log.receive env message).presync (log.receive env message).redownload) := by
  obtain ⟨st, presync, redownload, returned⟩ := log
  obtain ⟨headers, full⟩ := message
  cases headers with
  | nil =>
    have hsame : SyncLog.receive env ⟨st, presync, redownload, returned⟩ ⟨[], full⟩ =
        ⟨st, presync, redownload, returned⟩ := by
      simp [SyncLog.receive, processNextHeaders_nil]
    rw [hsame]
    exact ⟨h, fun hreturned => absurd rfl hreturned⟩
  | cons first rest =>
    cases h with
    | presync h hredownload hreturned =>
      cases hredownload
      cases hreturned
      have hphase : st.downloadState = .presync := h.phase
      have hnext : processNextHeaders env st (first :: rest) full =
          processNextHeaders.finish (processPresync env st (first :: rest) full) := by
        simp [processNextHeaders, hphase]
      simp only [SyncLog.receive, hphase, hnext]
      rcases finish_cases (processPresync env st (first :: rest) full) with hfin | ⟨hfin, hok, -⟩
      · rw [hfin]
        exact ⟨.final rfl List.nil_prefix trivial, fun hreturned => absurd rfl hreturned⟩
      · rw [hfin]
        refine ⟨?_, fun hreturned => absurd rfl hreturned⟩
        rcases validateAndStoreHeadersCommitments_spec h hok with hpresync | hredownload
        · exact .presync hpresync rfl rfl
        · exact .redownload [] hredownload
    | redownload buffered h =>
      have hphase : st.downloadState = .redownload := h.phase
      have hnext : processNextHeaders env st (first :: rest) full =
          processNextHeaders.finish (processRedownload env st (first :: rest) full) := by
        simp [processNextHeaders, hphase]
      have hsound : SyncLog.Sound env ⟨st, presync, redownload, returned⟩ := .redownload buffered h
      simp only [SyncLog.receive, hphase, hnext]
      rcases processRedownload_spec h (first :: rest) full with
        hfail | ⟨left, hreceived, hconnected, hchecked, hmore⟩
      · rw [hfail, finish_failed]
        refine ⟨.final rfl ?_ ?_, fun hreturned => absurd rfl hreturned⟩
        · simpa using hsound.returned_prefix.trans (List.prefix_append _ _)
        · simpa using hsound.connected
      · rcases finish_cases (processRedownload env st (first :: rest) full) with
          hfin | ⟨hfin, -, hrequest⟩
        · rw [hfin]
          refine ⟨.final rfl ⟨left, hreceived.symm⟩ ?_, fun _ => hchecked⟩
          rw [hreceived, connectedFrom_append] at hconnected
          exact hconnected.1
        · rw [hfin]
          exact ⟨.redownload left (hmore hrequest), fun _ => hchecked⟩
    | final hphase hpre hconnected =>
      have hstate : st.downloadState = .final := hphase
      have hnext : processNextHeaders env st (first :: rest) full = (⟨[], false, false⟩, st) :=
        processNextHeaders_final hstate (first :: rest) full
      have hsame : SyncLog.receive env ⟨st, presync, redownload, returned⟩ ⟨first :: rest, full⟩ =
          ⟨st, presync, redownload, returned⟩ := by
        simp [SyncLog.receive, hnext, hstate]
      rw [hsame, hnext]
      exact ⟨.final hphase hpre hconnected, fun hreturned => absurd rfl hreturned⟩

theorem SyncLog.run_concat (messages : List HeadersMessage) (message : HeadersMessage) :
    run env (messages ++ [message]) = (run env messages).receive env message := by
  simp [run]

theorem SyncLog.sound_run (env : SyncEnv) (messages : List HeadersMessage) :
    (run env messages).Sound env := by
  induction messages using List.reverseRecOn with
  | nil => exact sound_initial env
  | append_singleton messages message ih =>
    rw [run_concat]
    exact (ih.receive message).1

/-- The headers returned over any run are a chain from the start, the first of
those received in the redownload phase, and a message gets any of them returned
only when the work was reached again or every bit up to its end matched. -/
theorem headersSync_returns_checked_chain (env : SyncEnv) (messages : List HeadersMessage) :
    (run env messages).returned <+: (run env messages).redownload ∧
    ConnectedFrom env env.chainStart.header env.chainStart.nHeight (run env messages).returned ∧
    ∀ earlier message later, messages = earlier ++ message :: later →
      (processNextHeaders env (run env earlier).state message.headers
        message.full).1.powValidatedHeaders ≠ [] →
      env.minimumRequiredWork ≤ env.chainWork (run env (earlier ++ [message])).redownload ∨
        CommitmentsMatch env (run env (earlier ++ [message])).presync
          (run env (earlier ++ [message])).redownload := by
  have hsound := sound_run env messages
  refine ⟨hsound.returned_prefix, hsound.connected, ?_⟩
  intro earlier message later _ hreturned
  rw [run_concat]
  exact ((sound_run env earlier).receive message).2 hreturned

def sampleSyncEnv : SyncEnv where
  getHash := fun header => header.hashMerkleRoot
  hasher := fun _ => 0
  chain := .regtest false
  chainStart := ⟨CBlockHeader.null, 0, 0⟩
  minimumRequiredWork := 1
  commitOffset := 1
  medianTimePast := 0
  now := 0

def sampleSyncHeader : CBlockHeader :=
  ⟨1, Uint256.zero, Uint256.zero, 1, 0x207fffff, 0⟩

/-- A header that is sent twice is returned. -/
theorem headersSync_returns_sample_header :
    (run sampleSyncEnv [⟨[sampleSyncHeader], false⟩, ⟨[sampleSyncHeader], false⟩]).returned =
      [sampleSyncHeader] ∧
    ConnectedFrom sampleSyncEnv CBlockHeader.null 0 (run sampleSyncEnv
        [⟨[sampleSyncHeader], false⟩, ⟨[sampleSyncHeader], false⟩]).returned :=
  ⟨by decide +kernel, (headersSync_returns_checked_chain sampleSyncEnv _).2.1⟩

/-- A sync keeps no more between two messages than its parameters allow. -/
def Within (env : SyncEnv) (st : HeadersSyncState) : Prop :=
  st.headerCommitments.length ≤ env.maxCommitments ∧
    st.redownloadedHeaders.length ≤ (headersSyncParams env.chain).redownloadBufferSize

theorem Within.commit (h : Within env st) (hok : (validateAndStoreHeadersCommitments env st headers).1 = true) :
    Within env (validateAndStoreHeadersCommitments env st headers).2 := by
  have hbatch := @processEach_rule st (fun _ => Within env) (validateAndProcessSingleHeader env)
    (by grind [validateAndProcessSingleHeader, Within]) [] headers h
  cases headers with
  | nil => exact h
  | cons first rest =>
    rw [validateAndStoreHeadersCommitments] at hok ⊢
    grind [startRedownload, Within]

theorem popHeaders_length_le (all : Bool) (buffer : List CompressedHeader) (prev : Uint256) :
    (popHeaders env all buffer prev).2.1.length ≤ (headersSyncParams env.chain).redownloadBufferSize := by
  fun_induction popHeaders env all buffer prev <;> grind

theorem Within.redownload (h : Within env st) {full : Bool}
    (hok : (processRedownload env st headers full).1.success = true) :
    Within env (processRedownload env st headers full).2 := by
  -- No header of this phase adds a bit.
  have hbatch := @processEach_rule st (fun _ st => st.headerCommitments.length ≤ env.maxCommitments)
    (validateAndStoreRedownloadedHeader env) (by grind [validateAndStoreRedownloadedHeader]) [] headers h.1
  rw [processRedownload] at hok ⊢
  dsimp only at hok ⊢
  split at hok <;> rename_i hall
  · rw [if_pos hall]
    exact ⟨hbatch hall, popHeaders_length_le _ _ _⟩
  · cases hok

theorem Within.message (h : Within env st) (full : Bool) : Within env (processNextHeaders env st headers full).2 := by
  have hend : ∀ r, (r.1.success = true → Within env r.2) → Within env (processNextHeaders.finish r).2 := by
    intro r hr
    rcases finish_cases r with h | ⟨h, hok, -⟩ <;> rw [h]
    · exact ⟨Nat.zero_le _, Nat.zero_le _⟩
    · exact hr hok
  rw [processNextHeaders]
  split
  · exact h
  split
  · exact h
  · exact hend _ h.commit
  · exact hend _ h.redownload

theorem headersSync_within (env : SyncEnv) (messages : List HeadersMessage) : Within env (run env messages).state := by
  induction messages using List.reverseRecOn with
  | nil => exact ⟨Nat.zero_le _, Nat.zero_le _⟩
  | append_singleton messages message ih =>
    rw [run_concat]
    exact ih.message _

end Byze
