import Byze.MinerWeight

/-! When the templates of given options stay within the block limits once their
tail is attached. -/

namespace Byze
open BlockSigner

def ValidityTest.ofChain (env : ChainEnv) (ctx : TemplateContext) : ValidityTest where
  test := testBlockValidity env ctx
  size_ok block hok := by
    simp only [testBlockValidity, ExceptEq.throw_eq_error, ExceptEq.error_bind,
      ExceptEq.ite_error_eq_ok_iff, ExceptEq.unit_bind_eq_ok_iff] at hok
    exact (checkBlock_ok_iff.mp hok.2.1).2.2
  weight_ok block hok := by
    simp only [testBlockValidity, ExceptEq.throw_eq_error, ExceptEq.error_bind,
      ExceptEq.ite_error_eq_ok_iff, ExceptEq.unit_bind_eq_ok_iff] at hok
    exact checkBlockWeight_ok_iff.mpr (contextualCheckBlock_ok_iff.mp hok.2.2.2.1).2

def ValidityTest.limits : ValidityTest where
  test block := checkBlockSize block >>= fun _ => checkBlockWeight block
  size_ok _ hok := (ExceptEq.unit_bind_eq_ok_iff.mp hok).1
  weight_ok _ hok := (ExceptEq.unit_bind_eq_ok_iff.mp hok).2

structure CTxMemPoolEntry.Plain (rate : Nat) (entry : CTxMemPoolEntry) : Prop where
  fee : entry.modifiedFee = rate * entry.getTxWeight
  sigops : entry.sigOpCost = 0
  final : entry.tx.nLockTime = 0

def singletonChunks : Nat → List CTxMemPoolEntry → List Chunk
  | _, [] => []
  | i, entry :: entries =>
    ⟨i, [entry], List.cons_ne_nil _ _⟩ :: singletonChunks (i + 1) entries

theorem mem_singletonChunks {i : Nat} {entries : List CTxMemPoolEntry} {chunk : Chunk}
    (hmem : chunk ∈ singletonChunks i entries) :
    ∃ entry ∈ entries, chunk.entries = [entry] := by
  induction entries generalizing i with
  | nil => cases hmem
  | cons entry entries ih =>
    rcases List.mem_cons.mp hmem with rfl | htail
    · exact ⟨entry, List.mem_cons_self, rfl⟩
    · obtain ⟨e, he, hc⟩ := ih htail
      exact ⟨e, List.mem_cons_of_mem _ he, hc⟩

theorem singletonChunks_prevouts (i : Nat) (entries : List CTxMemPoolEntry) :
    (singletonChunks i entries).flatMap Chunk.prevouts =
      entries.flatMap fun entry => entry.tx.vin.map CTxIn.prevout := by
  induction entries generalizing i with
  | nil => rfl
  | cons entry entries ih =>
    simp [singletonChunks, ih, Chunk.prevouts]

theorem Chunk.feerate_of_plain {rate : Nat} {chunk : Chunk} {entry : CTxMemPoolEntry}
    (hc : chunk.entries = [entry]) (hp : entry.Plain rate) (bytesPerSigop : Nat) :
    chunk.feerate bytesPerSigop = ⟨rate * entry.getTxWeight, entry.getTxWeight⟩ := by
  simp [Chunk.feerate, hc, hp.fee, hp.sigops, getSigOpsAdjustedWeight]

def singletonMempool (rate : Nat) (entries : List CTxMemPoolEntry)
    (hplain : ∀ entry ∈ entries, entry.Plain rate)
    (hprev : (entries.flatMap fun entry => entry.tx.vin.map CTxIn.prevout).Nodup) : CTxMemPool where
  nBytesPerSigop := 20
  chunks := singletonChunks 0 entries
  sorted := by
    apply List.pairwise_of_forall_mem_list
    intro a ha b hb
    obtain ⟨ea, hea, hca⟩ := mem_singletonChunks ha
    obtain ⟨eb, heb, hcb⟩ := mem_singletonChunks hb
    rw [Chunk.feerate_of_plain hca (hplain ea hea), Chunk.feerate_of_plain hcb (hplain eb heb)]
    simp only [FeeFrac.lower, decide_eq_false_iff_not, not_lt]
    apply le_of_eq
    ring
  noConflict := by
    rw [singletonChunks_prevouts]
    exact hprev

theorem not_lower_of_plain {minRate : CFeeRate} {rate : Nat}
    (hrate : minRate.feerate.fee ≤ rate) (weight : Nat) :
    (toFeePerVSize ⟨rate * weight, weight⟩).lower minRate.feerate = false := by
  rw [FeeFrac.lower, decide_eq_false_iff_not, not_lt, toFeePerVSize, witnessScaleFactor]
  rcases minRate.size_nonneg.eq_or_lt with hzero | hpos
  · rw [← hzero, minRate.fee_eq_zero hzero.symm]
    simp
  · have hvsize : ((weight : Int) + 4 - 1) / 4 ≤ weight := by omega
    have hnonneg : 0 ≤ ((weight : Int) + 4 - 1) / 4 := by omega
    calc minRate.feerate.fee * (((weight : Int) + 4 - 1) / 4) ≤ rate * (((weight : Int) + 4 - 1) / 4) := by gcongr
      _ ≤ rate * weight := by gcongr
      _ = rate * weight * 1 := by simp
      _ ≤ rate * weight * minRate.feerate.size := by gcongr; exact hpos

namespace BlockAssembler

theorem addChunks_plain {options : BlockAssemblerOptions} {rate : Nat}
    (hrate : options.blockMinFeeRate.feerate.fee ≤ rate) (bytesPerSigop nHeight : Nat) (cutoff : Int)
    {entries : List CTxMemPoolEntry} (hplain : ∀ entry ∈ entries, entry.Plain rate) (i : Nat)
    {s : BlockAssembler} (hsigops : s.nBlockSigOpsCost < maxBlockSigopsCost)
    (hweight : s.nBlockWeight + (entries.map CTxMemPoolEntry.getTxWeight).sum < options.nBlockMaxWeight) :
    (addChunks options bytesPerSigop nHeight cutoff (singletonChunks i entries) [] 0 s).vtx =
      s.vtx ++ entries.map CTxMemPoolEntry.tx := by
  induction entries generalizing i s with
  | nil => simp [singletonChunks, addChunks]
  | cons entry entries ih =>
    have hp := hplain entry List.mem_cons_self
    rw [List.map_cons, List.sum_cons] at hweight
    have hfit : testChunkBlockLimits options s ⟨rate * entry.getTxWeight, entry.getTxWeight⟩ 0 =
        true := by
      rw [testChunkBlockLimits_iff]
      exact ⟨by dsimp only; omega, hsigops⟩
    have hfinal : testChunkTransactions nHeight cutoff [entry] = true := by
      simp [testChunkTransactions, isFinalTx, hp.final]
    have hfeerate : Chunk.feerate bytesPerSigop ⟨i, [entry], List.cons_ne_nil _ _⟩ =
        ⟨rate * entry.getTxWeight, entry.getTxWeight⟩ := Chunk.feerate_of_plain rfl hp _
    have hstep := ih (fun e he => hplain e (List.mem_cons_of_mem _ he)) (i + 1)
      (s := s.addChunk (toFeePerVSize ⟨rate * entry.getTxWeight, entry.getTxWeight⟩) [entry])
      (by simpa [addChunk, addToBlock, hp.sigops] using hsigops)
      (by simpa [addChunk, addToBlock, Nat.add_assoc] using hweight)
    simp only [singletonChunks, addChunks, hfeerate, List.not_mem_nil, if_false,
      not_lower_of_plain hrate, Bool.false_eq_true, List.map_singleton, List.sum_singleton,
      hp.sigops, hfit, hfinal, Bool.not_true, Bool.or_self, hstep]
    simp [addChunk, addToBlock]

end BlockAssembler

theorem selectTransactions_singletonMempool {options : BlockAssemblerOptions} {rate : Nat}
    (ctx : TemplateContext) (huse : options.useMempool = true)
    (hrate : options.blockMinFeeRate.feerate.fee ≤ rate)
    (hsigops : options.coinbaseOutputMaxAdditionalSigops < maxBlockSigopsCost)
    {entries : List CTxMemPoolEntry} (hplain : ∀ entry ∈ entries, entry.Plain rate)
    (hprev : (entries.flatMap fun entry => entry.tx.vin.map CTxIn.prevout).Nodup)
    (hweight : options.blockReservedWeight + (entries.map CTxMemPoolEntry.getTxWeight).sum <
      options.nBlockMaxWeight) :
    (selectTransactions ctx options (singletonMempool rate entries hplain hprev)).vtx =
      entries.map CTxMemPoolEntry.tx := by
  rw [selectTransactions, if_pos huse]
  exact BlockAssembler.addChunks_plain hrate _ _ _ hplain 0 hsigops hweight

structure SpendShape where
  script : CScript
  witness : List Bytes
  length_ge : 5 ≤ script.length
  length_lt : script.length < 253

namespace SpendShape
variable (shape : SpendShape) (i : Nat)

def prevout : COutPoint := ⟨Uint256.zero, UInt32.ofNat (i % 65536)⟩

def tx : CTransaction := ⟨2, [⟨prevout i, [], sequenceFinal, shape.witness⟩], [⟨0, shape.script⟩], 0⟩

theorem tx_size : ((shape.tx i).serialize false).length = 60 + shape.script.length := by
  have h0 : getSizeOfCompactSize 0 = 1 := rfl
  have h1 : getSizeOfCompactSize 1 = 1 := rfl
  rw [tx, size_of_single_input]
  simp only [List.length_nil, List.length_singleton, List.map_singleton, List.sum_singleton,
    CTxOut.serialize_length, getSizeOfCompactSize_eq_one shape.length_lt]
  omega

theorem tx_size_ge : minStandardTxNonwitnessSize ≤ ((shape.tx i).serialize false).length := by
  have hge := shape.length_ge
  rw [tx_size, minStandardTxNonwitnessSize]
  omega

def weight : Nat :=
  4 * (60 + shape.script.length) +
    if shape.witness = [] then 0 else 2 + (serializeWitness shape.witness).length

theorem tx_weight : getTransactionWeight (shape.tx i) = shape.weight := by
  rw [getTransactionWeight_eq, tx_size]
  simp [tx, weight, CTransaction.witnessSize, CTransaction.hasWitness, witnessScaleFactor]

theorem prevout_n : (prevout i).n.toNat = i % 65536 := by
  rw [prevout, UInt32.toNat_ofNat']
  omega

theorem prevout_notNull : (prevout i).isNull = false := by
  have hne : (prevout i).n ≠ 0xffffffff := by
    intro heq
    have hn := prevout_n i
    rw [heq] at hn
    have hlt : i % 65536 < 65536 := Nat.mod_lt _ (by decide)
    rw [← hn] at hlt
    exact absurd hlt (by decide)
  simp [COutPoint.isNull, hne]

theorem tx_checked : checkTransaction (shape.tx i) = .ok () := by
  have hlt := shape.length_lt
  have hsize : ((shape.tx i).serialize false).length * witnessScaleFactor ≤ maxBlockWeight := by
    rw [tx_size, witnessScaleFactor, maxBlockWeight]
    omega
  have hvalues : checkOutputValues 0 (shape.tx i).vout = .ok () := by
    simp [tx, checkOutputValues, moneyRange, maxMoney]
  have hcb : (shape.tx i).isCoinBase = false := prevout_notNull i
  have hvin : (shape.tx i).vin = [⟨prevout i, [], sequenceFinal, shape.witness⟩] := rfl
  have hvout : (shape.tx i).vout ≠ [] := List.cons_ne_nil _ _
  simp [checkTransaction, hcb, hvalues, Nat.not_lt.mpr hsize, hvin, hvout, prevout_notNull i]

def entry (rate : Nat) : CTxMemPoolEntry where
  tx := shape.tx i
  nFee := 0
  modifiedFee := rate * getTransactionWeight (shape.tx i)
  sigOpCost := 0
  checked := shape.tx_checked i
  notCoinBase := prevout_notNull i
  size_ge := shape.tx_size_ge i

def entries (rate : Nat) : Nat → List SpendShape → List CTxMemPoolEntry
  | _, [] => []
  | i, shape :: shapes => shape.entry i rate :: entries rate (i + 1) shapes

variable {i} {shapes : List SpendShape}

theorem entries_plain {rate : Nat} {entry : CTxMemPoolEntry}
    (hmem : entry ∈ entries rate i shapes) : entry.Plain rate := by
  induction shapes generalizing i with
  | nil => cases hmem
  | cons shape shapes ih =>
    rcases List.mem_cons.mp hmem with rfl | htail
    · exact ⟨rfl, rfl, rfl⟩
    · exact ih htail

theorem entries_weights (rate i : Nat) (shapes : List SpendShape) :
    (entries rate i shapes).map CTxMemPoolEntry.getTxWeight = shapes.map weight := by
  induction shapes generalizing i with
  | nil => rfl
  | cons shape shapes ih =>
    rw [entries, List.map_cons, ih]
    exact congrArg (· :: shapes.map weight) (shape.tx_weight i)

theorem entries_prevouts (rate i : Nat) (shapes : List SpendShape) :
    (entries rate i shapes).flatMap (fun entry => entry.tx.vin.map CTxIn.prevout) =
      (List.range' i shapes.length).map prevout := by
  induction shapes generalizing i with
  | nil => rfl
  | cons shape shapes ih =>
    rw [entries, List.flatMap_cons, ih]
    rfl

theorem entries_nodup (rate : Nat) (hlen : shapes.length ≤ 65536) :
    ((entries rate 0 shapes).flatMap fun entry => entry.tx.vin.map CTxIn.prevout).Nodup := by
  rw [entries_prevouts]
  refine List.Nodup.map_on ?_ List.nodup_range'
  intro a ha b hb heq
  rw [List.mem_range'_1] at ha hb
  have hn : (prevout a).n.toNat = (prevout b).n.toNat := by rw [heq]
  rw [prevout_n, prevout_n] at hn
  omega

def mempool (rate : Nat) (shapes : List SpendShape) (hlen : shapes.length ≤ 65536) : CTxMemPool :=
  singletonMempool rate (entries rate 0 shapes) (fun _ => entries_plain) (entries_nodup rate hlen)

theorem selectTransactions_mempool {options : BlockAssemblerOptions} {rate : Nat}
    (ctx : TemplateContext) (huse : options.useMempool = true)
    (hrate : options.blockMinFeeRate.feerate.fee ≤ rate)
    (hsigops : options.coinbaseOutputMaxAdditionalSigops < maxBlockSigopsCost)
    (hlen : shapes.length ≤ 65536)
    (hfit : options.blockReservedWeight + (shapes.map weight).sum < options.nBlockMaxWeight) :
    (selectTransactions ctx options (mempool rate shapes hlen)).vtx.map getTransactionWeight =
      shapes.map weight := by
  have hselect := selectTransactions_singletonMempool ctx huse hrate hsigops
    (fun _ => entries_plain) (entries_nodup rate hlen) (by rw [entries_weights]; exact hfit)
  rw [mempool, hselect, List.map_map]
  exact entries_weights rate 0 shapes

/-- A weight of 260, or any from 264 on: the witness takes up what the output
script does not. -/
def ofWeight (weight : Nat) : SpendShape :=
  if weight ≤ 260 then ⟨List.replicate 5 0, [], by decide, by decide⟩
  else if weight ≤ 516 then ⟨List.replicate 5 0, [List.replicate (weight - 264) 0], by decide, by decide⟩
  else if weight ≤ 518 then ⟨List.replicate 6 0, [List.replicate (weight - 268) 0], by decide, by decide⟩
  else if weight ≤ 65801 then
    ⟨List.replicate 5 0, [List.replicate (weight - 266) 0], by decide, by decide⟩
  else if weight ≤ 65803 then
    ⟨List.replicate 6 0, [List.replicate (weight - 270) 0], by decide, by decide⟩
  else ⟨List.replicate 5 0, [List.replicate (weight - 268) 0], by decide, by decide⟩

theorem weight_item (script : CScript) (n : Nat) (hge : 5 ≤ script.length) (hlt : script.length < 253) :
    weight ⟨script, [List.replicate n 0], hge, hlt⟩ =
      4 * (60 + script.length) + 3 + getSizeOfCompactSize n + n := by
  have h1 : getSizeOfCompactSize 1 = 1 := rfl
  rw [weight, if_neg (List.cons_ne_nil _ _)]
  simp only [serializeWitness, serializeVector_length, List.length_singleton, List.map_singleton,
    List.sum_singleton, serializeBytes_length, List.length_replicate]
  omega

theorem weight_ofWeight {w : Nat} (hw : w = 260 ∨ 264 ≤ w) (hle : w ≤ maxBlockWeight) :
    (ofWeight w).weight = w := by
  rw [maxBlockWeight] at hle
  rw [ofWeight]
  split_ifs
  · rw [weight, if_pos rfl, List.length_replicate]
    omega
  all_goals
    rw [weight_item, List.length_replicate, getSizeOfCompactSize]
    split_ifs <;> omega

theorem map_weight_ofWeight {weights : List Nat}
    (hw : ∀ w ∈ weights, (w = 260 ∨ 264 ≤ w) ∧ w ≤ maxBlockWeight) :
    (weights.map ofWeight).map weight = weights := by
  rw [List.map_map]
  refine (List.map_congr_left fun w hmem => ?_).trans weights.map_id
  exact weight_ofWeight (hw w hmem).1 (hw w hmem).2

end SpendShape

theorem clamp_le (v : Nat) {lo hi : Nat} (hle : lo ≤ hi) : clamp v lo hi ≤ hi := by
  simp only [clamp]
  split_ifs <;> omega

theorem clampOptions_nBlockMaxWeight_le (options : BlockAssemblerOptions) :
    (clampOptions options).nBlockMaxWeight ≤ maxBlockWeight :=
  clamp_le _ (clamp_le _ (by decide))

theorem exists_weights {n w : Nat} (hn : 0 < n) (hw : w = 260 * n ∨ 260 * n + 4 ≤ w) :
    ∃ weights : List Nat, weights.length = n ∧ weights.sum = w ∧
      ∀ v ∈ weights, (v = 260 ∨ 264 ≤ v) ∧ v ≤ w := by
  refine ⟨List.replicate (n - 1) 260 ++ [w - 260 * (n - 1)], ?_, ?_, ?_⟩
  · simp only [List.length_append, List.length_replicate, List.length_singleton]
    omega
  · simp only [List.sum_append, List.sum_replicate, List.sum_singleton, smul_eq_mul]
    omega
  · intro v hv
    rcases List.mem_append.mp hv with hmem | hmem
    · rw [List.eq_of_mem_replicate hmem]
      omega
    · rw [List.mem_singleton.mp hmem]
      omega

theorem exists_mempool_of_selectable (ctx : TemplateContext) (options : BlockAssemblerOptions)
    (hmax : options.nBlockMaxWeight ≤ maxBlockWeight) {n w : Nat} (hs : Selectable options n w) :
    ∃ mempool, (selectTransactions ctx options mempool).vtx.length = n ∧
      ((selectTransactions ctx options mempool).vtx.map getTransactionWeight).sum = w := by
  rcases hs with ⟨rfl, rfl⟩ | ⟨hn, huse, hsigops, hfit, hw⟩
  · refine ⟨singletonMempool 0 [] (by simp) List.nodup_nil, ?_⟩
    have hnil : (selectTransactions ctx options
        (singletonMempool 0 [] (by simp) List.nodup_nil)).vtx = [] := by
      rw [selectTransactions]
      split_ifs <;> rfl
    simp [hnil]
  · obtain ⟨weights, hlen, hsum, hweights⟩ := exists_weights hn hw
    have hle : w ≤ maxBlockWeight := by omega
    have hcount : (weights.map SpendShape.ofWeight).length ≤ 65536 := by
      rw [List.length_map]
      rw [maxBlockWeight] at hle
      omega
    have hmap := SpendShape.map_weight_ofWeight fun v hv =>
        ⟨(hweights v hv).1, Nat.le_trans (hweights v hv).2 hle⟩
    have hselect := SpendShape.selectTransactions_mempool ctx huse (Int.self_le_toNat _) hsigops
      hcount (by rw [hmap, hsum]; exact hfit)
    rw [hmap] at hselect
    have hlength := congrArg List.length hselect
    rw [List.length_map] at hlength
    exact ⟨_, hlength.trans hlen, (congrArg List.sum hselect).trans hsum⟩

/-- The weight that the options leave for transactions of the mempool. -/
def selectionRoom (options : BlockAssemblerOptions) : Nat :=
  if options.useMempool = true ∧ options.coinbaseOutputMaxAdditionalSigops < maxBlockSigopsCost then
    options.nBlockMaxWeight - options.blockReservedWeight - 1
  else 0

/-- The most that the selected transactions and their count weigh. A transaction
weighs 260 units, or 264 and more, and the count grows with the 252nd of them. -/
def heaviestSelection (room : Nat) : Nat :=
  if room < 260 then 4
  else if room < 264 then 264
  else if room < 65520 then room + 4
  else if room < 65524 then 65532
  else room + 12

/-- The heaviest selection fits with the tail. If the template is tested without
its tail first, it is also enough that no tail is signed, or that not even the
empty template passes. -/
def LeavesRoomForTail (env : NodeEnv) (ctx : TemplateContext) (options : BlockAssemblerOptions)
    (signed : Bool) : Prop :=
  templateCoinbaseWeight env ctx options + heaviestSelection (selectionRoom (clampOptions options)) +
      witnessScaleFactor * (80 + tailSize signed) ≤ maxBlockWeight ∨
    options.testBlockValidity = true ∧ (signed = false ∨ maxBlockWeight <
      templateCoinbaseWeight env ctx options + 4 + witnessScaleFactor * (80 + tailSize false))

instance (env : NodeEnv) (ctx : TemplateContext) (options : BlockAssemblerOptions) (signed : Bool) :
    Decidable (LeavesRoomForTail env ctx options signed) :=
  inferInstanceAs (Decidable (_ ∨ _))

section
variable {options : BlockAssemblerOptions} {n w : Nat}

theorem selectable_of_room (hn : 0 < n) (hle : w ≤ selectionRoom options)
    (hw : w = 260 * n ∨ 260 * n + 4 ≤ w) : Selectable options n w := by
  rw [selectionRoom] at hle
  split_ifs at hle with hopen
  · exact Or.inr ⟨hn, hopen.1, hopen.2, by omega, hw⟩
  · omega

theorem le_heaviestSelection (hmax : options.nBlockMaxWeight ≤ maxBlockWeight) (hs : Selectable options n w) :
    w + 4 * getSizeOfCompactSize (n + 1) ≤ heaviestSelection (selectionRoom options) := by
  rcases hs with ⟨rfl, rfl⟩ | ⟨hn, huse, hsigops, hfit, hw⟩
  · have hone : getSizeOfCompactSize (0 + 1) = 1 := rfl
    rw [hone, heaviestSelection]
    split_ifs <;> omega
  · rw [maxBlockWeight] at hmax
    rw [selectionRoom, if_pos ⟨huse, hsigops⟩, getSizeOfCompactSize, heaviestSelection]
    split_ifs <;> omega

theorem exists_heaviest (options : BlockAssemblerOptions) : ∃ n w, Selectable options n w ∧
    w + 4 * getSizeOfCompactSize (n + 1) = heaviestSelection (selectionRoom options) := by
  rw [heaviestSelection]
  split_ifs with h260 h264 h65520 h65524
  · exact ⟨0, 0, Or.inl ⟨rfl, rfl⟩, rfl⟩
  · exact ⟨1, 260, selectable_of_room Nat.one_pos (by omega) (Or.inl rfl), rfl⟩
  · exact ⟨1, _, selectable_of_room Nat.one_pos le_rfl (by omega), rfl⟩
  · exact ⟨252, 65520, selectable_of_room (by decide) (by omega) (Or.inl rfl), rfl⟩
  · exact ⟨252, _, selectable_of_room (by decide) le_rfl (by omega), rfl⟩

/-- What lighter selections weigh leaves no gap as wide as a signed tail. -/
theorem exists_lighter (options : BlockAssemblerOptions) (limit : Nat) (hge : 4 ≤ limit)
    (hlt : limit < heaviestSelection (selectionRoom options)) :
    ∃ n w, Selectable options n w ∧ w + 4 * getSizeOfCompactSize (n + 1) ≤ limit ∧
      limit < w + 4 * getSizeOfCompactSize (n + 1) + 272 := by
  by_cases hsmall : limit < 268
  · exact ⟨0, 0, Or.inl ⟨rfl, rfl⟩, hge, by omega⟩
  · have hroom : 264 ≤ selectionRoom options ∧ limit < selectionRoom options + 12 := by
      rw [heaviestSelection] at hlt
      split_ifs at hlt <;> omega
    have htwo : getSizeOfCompactSize (1 + 1) = 1 := rfl
    refine ⟨1, min (limit - 4) (selectionRoom options),
      selectable_of_room Nat.one_pos (Nat.min_le_right _ _) (by omega), ?_, ?_⟩
    · omega
    · omega

theorem weightWithTail_eq (cbWeight n w tailSize : Nat) : weightWithTail cbWeight n w tailSize =
    cbWeight + (w + 4 * getSizeOfCompactSize (n + 1)) + witnessScaleFactor * (80 + tailSize) := by
  rw [weightWithTail, witnessScaleFactor]
  omega

/-- Every selection that passes the test, if there is one, fits with the tail. -/
theorem selections_fit_iff (env : NodeEnv) (ctx : TemplateContext) (options : BlockAssemblerOptions)
    (signed : Bool) :
    (∀ n w, Selectable (clampOptions options) n w → (options.testBlockValidity = true →
        weightWithTail (templateCoinbaseWeight env ctx options) n w (tailSize false) ≤ maxBlockWeight) →
      weightWithTail (templateCoinbaseWeight env ctx options) n w (tailSize signed) ≤ maxBlockWeight) ↔
    LeavesRoomForTail env ctx options signed := by
  simp only [weightWithTail_eq, LeavesRoomForTail]
  generalize templateCoinbaseWeight env ctx options = cb
  constructor
  · intro hall
    by_contra hnot
    obtain ⟨hover, htest⟩ := not_or.mp hnot
    obtain ⟨n, w, hsel, hheavy⟩ := exists_heaviest (clampOptions options)
    by_cases htbv : options.testBlockValidity = true
    · obtain ⟨hsigned, hempty⟩ := not_or.mp fun h => htest ⟨htbv, h⟩
      obtain rfl : signed = true := by simpa using hsigned
      simp only [witnessScaleFactor, maxBlockWeight, tailSize, if_true, Bool.false_eq_true, if_false,
        htbv, forall_const] at hall hover hempty
      by_cases hpass : cb + heaviestSelection (selectionRoom (clampOptions options)) + 332 ≤ 4000000
      · have hfits := hall n w hsel (by omega)
        omega
      · obtain ⟨n, w, hsel, hle, hgap⟩ := exists_lighter (clampOptions options) (4000000 - 332 - cb)
          (by omega) (by omega)
        have hfits := hall n w hsel (by omega)
        omega
    · have hfits := hall n w hsel fun h => absurd h htbv
      rw [hheavy] at hfits
      exact hover hfits
  · rintro (hroom | ⟨htbv, rfl | hempty⟩) n w hsel hfits
    · have hle := le_heaviestSelection (clampOptions_nBlockMaxWeight_le options) hsel
      omega
    · exact hfits htbv
    · have hfits := hfits htbv
      have hcount : 1 ≤ getSizeOfCompactSize (n + 1) := by
        rw [getSizeOfCompactSize]
        split_ifs <;> omega
      omega
end

section
variable {Key : Type} (lib : Liboqs Key) (env : NodeEnv) (ctx : TemplateContext)
  (options : BlockAssemblerOptions) (requireQuantum isGenesis : Bool)

def AttachEnv.undisturbed : AttachEnv where
  keygenThread := true
  keygenSeed := Uint256.zero
  keygen := ⟨.succeeds, .succeeds⟩
  signThread := true
  indexRead := .succeeds
  rotationSeed := Uint256.zero
  rotation := ⟨.succeeds, .succeeds⟩
  signing := ⟨true, .succeeds, true⟩

/-- The block of a template after a call of the block signer, which may have
been called any number of times before. -/
def attachTo (template : CBlockTemplate) (calls : List AttachCall) (attachEnv : AttachEnv) :
    Attached Key :=
  (run env.hashes lib env.getHash calls).1.attachQuantumBlockSignatures env.hashes lib
    env.getHash ⟨template.block, requireQuantum, isGenesis, attachEnv⟩

theorem attachTo_undisturbed (template : CBlockTemplate) :
    (attachTo lib env requireQuantum isGenesis template [] AttachEnv.undisturbed).ok = true := by
  by_cases hskip : (!requireQuantum || isGenesis) = true
  · exact congrArg Attached.ok (if_pos hskip)
  · obtain ⟨rfl, rfl⟩ : requireQuantum = true ∧ isGenesis = false := by simpa using hskip
    exact (attach_of_noFailure env.getHash (by simp [run, initial])
      ⟨rfl, rfl, ⟨rfl, rfl, rfl, rfl, rfl⟩, rfl⟩).1

variable {lib env ctx options requireQuantum isGenesis}

section
variable {mempool : CTxMemPool} {template : CBlockTemplate}
  (ht : assembleBlock env ctx options mempool = some template)

include ht

theorem getBlockWeight_attachTo {calls : List AttachCall} {attachEnv : AttachEnv}
    (hok : (attachTo lib env requireQuantum isGenesis template calls attachEnv).ok = true) :
    (attachTo lib env requireQuantum isGenesis template calls attachEnv).block.vtx ≠ [] ∧
      getBlockWeight (attachTo lib env requireQuantum isGenesis template calls attachEnv).block =
        weightWithTail (templateCoinbaseWeight env ctx options)
          (selectTransactions ctx (clampOptions options) mempool).vtx.length
          ((selectTransactions ctx (clampOptions options) mempool).vtx.map getTransactionWeight).sum
          (tailSize (requireQuantum && !isGenesis)) := by
  obtain ⟨t, coinbase, ht', hvtx, hcb, -⟩ := assembleBlock_eq env ctx options mempool
  obtain rfl : template = t := Option.some.inj (ht.symm.trans ht')
  obtain ⟨tail, hblock, htail⟩ := attach_ok_tail (run_keyed calls) hok
  rw [attachTo, hblock]
  refine ⟨hvtx ▸ List.cons_ne_nil _ _, ?_⟩
  rw [← hcb, ← htail]
  exact getBlockWeight_of_coinbase hvtx

theorem getBlockWeight_template : template.block.vtx ≠ [] ∧ getBlockWeight template.block =
      weightWithTail (templateCoinbaseWeight env ctx options)
        (selectTransactions ctx (clampOptions options) mempool).vtx.length
        ((selectTransactions ctx (clampOptions options) mempool).vtx.map getTransactionWeight).sum
        (tailSize false) := by
  obtain ⟨t, coinbase, ht', hvtx, hcb, hnull⟩ := assembleBlock_eq env ctx options mempool
  obtain rfl : template = t := Option.some.inj (ht.symm.trans ht')
  refine ⟨hvtx ▸ List.cons_ne_nil _ _, ?_⟩
  have hweight := getBlockWeight_of_coinbase hvtx
  rw [hnull, hcb] at hweight
  exact hweight

theorem createNewBlock_limits (hfits : options.testBlockValidity = true → getBlockWeight template.block ≤ maxBlockWeight) :
    createNewBlock env ctx options mempool ValidityTest.limits = .ok template := by
  rw [createNewBlock_ok_iff]
  refine ⟨ht, fun htest => ?_⟩
  exact ExceptEq.unit_bind_eq_ok_iff.mpr
    ⟨checkBlockSize_of_weight (getBlockWeight_template ht).1 (hfits htest),
      checkBlockWeight_ok_iff.mpr (hfits htest)⟩
end

/-- The blocks of the templates that the options lead to keep within the limits
with their tail, for every mempool and every state of the block signer, exactly
if the options leave room for the tail. -/
theorem attached_withinLimits_iff :
    (∀ mempool validity template, createNewBlock env ctx options mempool validity = .ok template →
      ∀ calls attachEnv, (attachTo lib env requireQuantum isGenesis template calls attachEnv).ok = true →
        checkBlockSize (attachTo lib env requireQuantum isGenesis template calls attachEnv).block = .ok () ∧
          checkBlockWeight (attachTo lib env requireQuantum isGenesis template calls
            attachEnv).block = .ok ()) ↔
      LeavesRoomForTail env ctx options (requireQuantum && !isGenesis) := by
  rw [← selections_fit_iff]
  constructor
  · intro hall n w hsel hfits
    obtain ⟨mempool, hlen, hsum⟩ := exists_mempool_of_selectable ctx (clampOptions options)
      (clampOptions_nBlockMaxWeight_le options) hsel
    obtain ⟨template, -, ht, -⟩ := assembleBlock_eq env ctx options mempool
    have hcreate : createNewBlock env ctx options mempool ValidityTest.limits = .ok template := by
      apply createNewBlock_limits ht
      rw [(getBlockWeight_template ht).2, hlen, hsum]
      exact hfits
    have hok := attachTo_undisturbed lib env requireQuantum isGenesis template
    have hlimits := (hall mempool ValidityTest.limits template hcreate [] _ hok).2
    have hweight := (getBlockWeight_attachTo ht hok).2
    rw [checkBlockWeight_ok_iff, hweight, hlen, hsum] at hlimits
    exact hlimits
  · intro hroom mempool validity template hcreate calls attachEnv hok
    obtain ⟨ht, htest⟩ := createNewBlock_ok_iff.mp hcreate
    obtain ⟨hne, hweight⟩ := getBlockWeight_attachTo ht hok
    have hle := hroom _ _ (selectable_of_selectTransactions ctx (clampOptions options) mempool)
      (fun htbv => by
        have hok := checkBlockWeight_ok_iff.mp (validity.weight_ok _ (htest htbv))
        rw [(getBlockWeight_template ht).2] at hok
        exact hok)
    rw [← hweight] at hle
    exact ⟨checkBlockSize_of_weight hne hle, checkBlockWeight_ok_iff.mpr hle⟩
end

def quantumSpend : SpendShape where
  script := [0x51, 0x20] ++ List.replicate 32 0
  witness := [List.replicate xmssSignatureSize 0, List.replicate sphincsSignatureSize 0,
    List.replicate dualPubkeyBundleSize 0]
  length_ge := by decide
  length_lt := by decide

theorem quantumSpend_weight : quantumSpend.weight = 10842 := by
  decide +kernel

def mainEnv : NodeEnv where
  hashes := byteSumHashes
  oqs := sampleLiboqs.toOqsVerify
  getHash := fun header => byteSumHashes.sha256 header.serialize
  chain := .main
  hashGenesisBlock := Uint256.zero
  enforceQuantumBlockSigs := false
  signetBlocks := false
  checkSignetBlockSolution := fun _ _ => true
  bip34Height := 1
  bip65Height := 1
  bip66Height := 1
  csvHeight := 1
  segwitHeight := 0

def mainTip : TemplateContext where
  tipHash := Uint256.zero
  pindexPrev := .genesis (genesisTime .main) (genesisBits .main)
  now := genesisTime .main
  nVersion := 0x20000000

theorem quantumSpends_length : (List.replicate 368 quantumSpend).length ≤ 65536 := by
  rw [List.length_replicate]
  decide

def quantumMempool : CTxMemPool :=
  SpendShape.mempool 1 (List.replicate 368 quantumSpend) quantumSpends_length

theorem quantumMempool_selected : ((selectTransactions mainTip (clampOptions BlockAssemblerOptions.default)
        quantumMempool).vtx.map getTransactionWeight) = List.replicate 368 10842 := by
  have hmap : (List.replicate 368 quantumSpend).map SpendShape.weight = List.replicate 368 10842 := by
    rw [List.map_replicate, quantumSpend_weight]
  rw [quantumMempool, SpendShape.selectTransactions_mempool mainTip rfl (by decide) (by decide), hmap]
  rw [hmap, List.sum_replicate]
  decide

def loweredOptions : BlockAssemblerOptions :=
  { BlockAssemblerOptions.default with nBlockMaxWeight := 3965000 }

/-- With a lower limit for the template there is room. -/
theorem attached_withinLimits_lowered : LeavesRoomForTail mainEnv mainTip loweredOptions true ∧
    ∀ mempool validity template, createNewBlock mainEnv mainTip loweredOptions mempool validity = .ok template →
      ∀ calls attachEnv, (attachTo sampleLiboqs mainEnv true false template calls attachEnv).ok = true →
        checkBlockSize (attachTo sampleLiboqs mainEnv true false template calls attachEnv).block = .ok () ∧
          checkBlockWeight (attachTo sampleLiboqs mainEnv true false template calls attachEnv).block = .ok () := by
  have hroom : LeavesRoomForTail mainEnv mainTip loweredOptions true := by decide
  exact ⟨hroom, attached_withinLimits_iff.mpr hroom⟩

/-- 368 spends in the mempool and default options: the template is within the
limits, and no longer when its tail is attached. -/
theorem default_template_overweight :
    ∃ template, createNewBlock mainEnv mainTip BlockAssemblerOptions.default quantumMempool
        ValidityTest.limits = .ok template ∧
      (attachTo sampleLiboqs mainEnv true false template [] AttachEnv.undisturbed).ok = true ∧
      checkBlockWeight (attachTo sampleLiboqs mainEnv true false template []
        AttachEnv.undisturbed).block = .error ⟨.consensus, "bad-blk-weight"⟩ := by
  obtain ⟨template, -, ht, -⟩ := assembleBlock_eq mainEnv mainTip BlockAssemblerOptions.default quantumMempool
  have hlength := congrArg List.length quantumMempool_selected
  rw [List.length_map, List.length_replicate] at hlength
  have hsum := congrArg List.sum quantumMempool_selected
  rw [List.sum_replicate] at hsum
  have hok := attachTo_undisturbed sampleLiboqs mainEnv true false template
  refine ⟨template, createNewBlock_limits ht fun _ => ?_, hok, ?_⟩
  · rw [(getBlockWeight_template ht).2, hlength, hsum]
    decide
  · rw [checkBlockWeight, (getBlockWeight_attachTo ht hok).2, hlength, hsum]
    exact if_pos (by decide)

end Byze
