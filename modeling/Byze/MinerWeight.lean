import Byze.Miner
import Byze.RequiredWork
import Byze.TailSize

/-! What the assembler can select, and what the template then weighs once the
tail of quantum signatures is attached. -/

namespace Byze

def coinbaseWeight (script : CScript) (nHeight : Nat) (segwitActive : Bool) : Nat :=
  let scriptSigSize := (pushInt64 nHeight).length + 1
  witnessScaleFactor * (58 + getSizeOfCompactSize scriptSigSize + scriptSigSize +
    getSizeOfCompactSize script.length + script.length +
    if isWitnessCommitment script then 0 else 47) + if segwitActive then 36 else 0

/-- `n` mempool transactions of total weight `w` fit in the room that the options
leave. A single transaction weighs 260 units, or 264 and more. -/
def Selectable (options : BlockAssemblerOptions) (n w : Nat) : Prop :=
  (n = 0 ∧ w = 0) ∨ (0 < n ∧ options.useMempool = true ∧
      options.coinbaseOutputMaxAdditionalSigops < maxBlockSigopsCost ∧
      options.blockReservedWeight + w < options.nBlockMaxWeight ∧
      (w = 260 * n ∨ 260 * n + 4 ≤ w))

def weightWithTail (cbWeight n w tailSize : Nat) : Nat :=
  cbWeight + w + witnessScaleFactor * (80 + getSizeOfCompactSize (n + 1) + tailSize)

theorem CTxMemPoolEntry.weight_cases (entry : CTxMemPoolEntry) :
    entry.getTxWeight = 260 ∨ 264 ≤ entry.getTxWeight := by
  have hsize := entry.size_ge
  rw [minStandardTxNonwitnessSize] at hsize
  rw [getTxWeight, getTransactionWeight_eq, witnessScaleFactor]
  cases hw : entry.tx.hasWitness with
  | false =>
    have h0 : entry.tx.witnessSize = 0 := by simp [CTransaction.witnessSize, hw]
    omega
  | true =>
    have hfour := CTransaction.four_le_witnessSize hw
    omega

theorem sum_weight_cases {weights : List Nat} (hw : ∀ w ∈ weights, w = 260 ∨ 264 ≤ w) :
    weights.sum = 260 * weights.length ∨ 260 * weights.length + 4 ≤ weights.sum := by
  induction weights with
  | nil => exact .inl rfl
  | cons w weights ih =>
    have hhead := hw w List.mem_cons_self
    have htail := ih fun v hv => hw v (List.mem_cons_of_mem _ hv)
    simp only [List.sum_cons, List.length_cons]
    omega

theorem getTxWeight_le_feerate_size (chunk : Chunk) (bytesPerSigop : Nat) :
    (chunk.entries.map CTxMemPoolEntry.getTxWeight).sum ≤ (chunk.feerate bytesPerSigop).size := by
  have hle : (chunk.entries.map CTxMemPoolEntry.getTxWeight).sum ≤ (chunk.entries.map fun entry =>
      getSigOpsAdjustedWeight entry.getTxWeight entry.sigOpCost bytesPerSigop).sum :=
    List.sum_le_sum fun _ _ => le_max_left _ _
  exact Int.ofNat_le.mpr hle

namespace BlockAssembler
variable {options : BlockAssemblerOptions} {s : BlockAssembler}

theorem testChunkBlockLimits_iff {chunkFeerate : FeeFrac} {chunkSigopsCost : Nat} :
    testChunkBlockLimits options s chunkFeerate chunkSigopsCost = true ↔
      (s.nBlockWeight : Int) + chunkFeerate.size < options.nBlockMaxWeight ∧
        s.nBlockSigOpsCost + chunkSigopsCost < maxBlockSigopsCost := by
  simp only [testChunkBlockLimits]
  simp_all

theorem foldl_addToBlock_vtx (txs : List CTxMemPoolEntry) :
    (txs.foldl addToBlock s).vtx = s.vtx ++ txs.map CTxMemPoolEntry.tx := by
  induction txs generalizing s with
  | nil => simp
  | cons entry txs ih => simp [ih, addToBlock]

theorem foldl_addToBlock_nBlockWeight (txs : List CTxMemPoolEntry) : (txs.foldl addToBlock s).nBlockWeight =
      s.nBlockWeight + (txs.map CTxMemPoolEntry.getTxWeight).sum := by
  induction txs generalizing s with
  | nil => simp
  | cons entry txs ih => simp [ih, addToBlock, Nat.add_assoc]

theorem foldl_addToBlock_nBlockSigOpsCost (txs : List CTxMemPoolEntry) :
    (txs.foldl addToBlock s).nBlockSigOpsCost =
      s.nBlockSigOpsCost + (txs.map CTxMemPoolEntry.sigOpCost).sum := by
  induction txs generalizing s with
  | nil => simp
  | cons entry txs ih => simp [ih, addToBlock, Nat.add_assoc]

/-- What holds of the assembler whenever it has gone through some chunks. -/
structure Selection (options : BlockAssemblerOptions) (s : BlockAssembler) : Prop where
  weight_eq : s.nBlockWeight = options.blockReservedWeight + (s.vtx.map getTransactionWeight).sum
  sigops_ge : options.coinbaseOutputMaxAdditionalSigops ≤ s.nBlockSigOpsCost
  fits : s.vtx ≠ [] → s.nBlockWeight < options.nBlockMaxWeight ∧ s.nBlockSigOpsCost < maxBlockSigopsCost
  weights : ∀ tx ∈ s.vtx, getTransactionWeight tx = 260 ∨ 264 ≤ getTransactionWeight tx

theorem Selection.reset : Selection options (resetBlock options) where
  weight_eq := rfl
  sigops_ge := Nat.le_refl _
  fits hne := absurd rfl hne
  weights tx hmem := by cases hmem

theorem Selection.addChunk (hs : Selection options s) {chunk : Chunk} {bytesPerSigop : Nat}
    (hfit : testChunkBlockLimits options s (chunk.feerate bytesPerSigop)
      (chunk.entries.map CTxMemPoolEntry.sigOpCost).sum = true) (rate : FeeFrac) :
    Selection options (s.addChunk rate chunk.entries) := by
  obtain ⟨hweight, hsigops⟩ := testChunkBlockLimits_iff.mp hfit
  have hle := getTxWeight_le_feerate_size chunk bytesPerSigop
  refine ⟨?_, ?_, fun _ => ⟨?_, ?_⟩, ?_⟩
  · simp only [BlockAssembler.addChunk, foldl_addToBlock_nBlockWeight, foldl_addToBlock_vtx,
      hs.weight_eq, List.map_append, List.sum_append, List.map_map, Nat.add_assoc]
    rfl
  · simp only [BlockAssembler.addChunk, foldl_addToBlock_nBlockSigOpsCost]
    exact Nat.le_add_right_of_le hs.sigops_ge
  · simp only [BlockAssembler.addChunk, foldl_addToBlock_nBlockWeight]
    omega
  · simp only [BlockAssembler.addChunk, foldl_addToBlock_nBlockSigOpsCost]
    exact hsigops
  · intro tx hmem
    simp only [BlockAssembler.addChunk, foldl_addToBlock_vtx, List.mem_append, List.mem_map] at hmem
    rcases hmem with hold | ⟨entry, -, rfl⟩
    · exact hs.weights tx hold
    · exact entry.weight_cases

theorem Selection.addChunks {bytesPerSigop nHeight : Nat} {cutoff : Int} (chunks : List Chunk)
    (excluded : List Nat) (failed : Nat) (hs : Selection options s) :
    Selection options (addChunks options bytesPerSigop nHeight cutoff chunks excluded failed s) := by
  induction chunks generalizing s excluded failed with
  | nil => exact hs
  | cons chunk chunks ih =>
    rw [addChunks]
    split
    · exact ih _ _ hs
    split
    · exact hs
    split
    · split
      · exact hs
      · exact ih _ _ hs
    · rename_i hfit
      simp only [Bool.or_eq_true, Bool.not_eq_true', not_or, Bool.not_eq_false] at hfit
      exact ih _ _ (hs.addChunk hfit.1 _)

end BlockAssembler

theorem selection_of_selectTransactions (ctx : TemplateContext) (options : BlockAssemblerOptions)
    (mempool : CTxMemPool) :
    BlockAssembler.Selection options (selectTransactions ctx options mempool) := by
  rw [selectTransactions]
  split
  · exact BlockAssembler.Selection.reset.addChunks _ _ _
  · exact BlockAssembler.Selection.reset

theorem selectable_of_selectTransactions (ctx : TemplateContext) (options : BlockAssemblerOptions)
    (mempool : CTxMemPool) :
    Selectable options (selectTransactions ctx options mempool).vtx.length
      ((selectTransactions ctx options mempool).vtx.map getTransactionWeight).sum := by
  have hs := selection_of_selectTransactions ctx options mempool
  have huse : (selectTransactions ctx options mempool).vtx ≠ [] → options.useMempool = true := by
    intro hne
    by_contra huse
    rw [selectTransactions, if_neg huse] at hne
    exact hne rfl
  generalize selectTransactions ctx options mempool = s at hs huse
  by_cases hnil : s.vtx = []
  · exact .inl (by simp [hnil])
  · obtain ⟨hweight, hsigops⟩ := hs.fits hnil
    have hweights : ∀ w ∈ s.vtx.map getTransactionWeight, w = 260 ∨ 264 ≤ w := by
      simpa using hs.weights
    have hcases := sum_weight_cases hweights
    rw [List.length_map] at hcases
    refine .inr ⟨List.length_pos_iff.mpr hnil, huse hnil, ?_, ?_, hcases⟩
    · exact Nat.lt_of_le_of_lt hs.sigops_ge hsigops
    · exact hs.weight_eq ▸ hweight

theorem getWitnessCommitmentIndex_isSome (coinbase : CTransaction) (txs : List CTransaction) :
    (getWitnessCommitmentIndex (coinbase :: txs)).isSome =
      coinbase.vout.any fun txout => isWitnessCommitment txout.scriptPubKey := by
  rw [Bool.eq_iff_iff, getWitnessCommitmentIndex, List.getLast?_isSome, List.any_eq_true]
  constructor
  · intro hne
    obtain ⟨o, hmem⟩ := List.exists_mem_of_ne_nil _ hne
    simp only [List.mem_filter, Option.any_eq_true] at hmem
    obtain ⟨-, txout, hget, hc⟩ := hmem
    exact ⟨txout, List.mem_of_getElem? hget, hc⟩
  · rintro ⟨txout, hmem, hc⟩
    obtain ⟨o, hlt, rfl⟩ := List.mem_iff_getElem.mp hmem
    apply List.ne_nil_of_mem (a := o)
    simp only [List.mem_filter, List.mem_range]
    exact ⟨hlt, by simpa [hlt] using hc⟩

section
variable (version nLockTime nSequence : UInt32) (prevout : COutPoint) (scriptSig : CScript)
  (scriptWitness : List Bytes) (vout : List CTxOut)

theorem size_of_single_input : (CTransaction.serialize false
      ⟨version, [⟨prevout, scriptSig, nSequence, scriptWitness⟩], vout, nLockTime⟩).length =
      49 + getSizeOfCompactSize scriptSig.length + scriptSig.length +
        getSizeOfCompactSize vout.length + (vout.map fun txout => txout.serialize.length).sum := by
  have h1 : getSizeOfCompactSize 1 = 1 := rfl
  rw [CTransaction.serialize_false_length]
  simp only [List.length_singleton, List.map_singleton, List.sum_singleton, CTxIn.serialize_length]
  omega

theorem weight_of_single_input :
    getTransactionWeight ⟨version, [⟨prevout, scriptSig, nSequence, scriptWitness⟩], vout, nLockTime⟩ =
      witnessScaleFactor * (49 + getSizeOfCompactSize scriptSig.length + scriptSig.length +
        getSizeOfCompactSize vout.length + (vout.map fun txout => txout.serialize.length).sum) +
      if scriptWitness = [] then 0 else 2 + (serializeWitness scriptWitness).length := by
  rw [getTransactionWeight_eq, size_of_single_input]
  simp [CTransaction.witnessSize, CTransaction.hasWitness]
end

def committedCoinbase (segwitActive : Bool) (nHeight : Nat) (vout : List CTxOut) : CTransaction :=
  ⟨2, [⟨⟨Uint256.zero, 0xffffffff⟩, pushInt64 nHeight ++ [op0], maxSequenceNonfinal,
    if segwitActive then [List.replicate 32 0] else []⟩], vout, UInt32.ofNat (nHeight - 1)⟩

theorem committedCoinbase_weight (segwitActive : Bool) (nHeight : Nat) (vout : List CTxOut) :
    getTransactionWeight (committedCoinbase segwitActive nHeight vout) =
      witnessScaleFactor * (49 + getSizeOfCompactSize ((pushInt64 nHeight).length + 1) +
        ((pushInt64 nHeight).length + 1) + getSizeOfCompactSize vout.length +
        (vout.map fun txout => txout.serialize.length).sum) + if segwitActive then 36 else 0 := by
  rw [committedCoinbase, weight_of_single_input, List.length_append]
  cases segwitActive
  · rfl
  · rfl

theorem updateUncommitted_coinbaseTx {segwitActive : Bool} (script : CScript) {nHeight : Nat}
    (nValue : Int) {vout : List CTxOut} {txs : List CTransaction}
    (hc : vout.any (fun txout => isWitnessCommitment txout.scriptPubKey) = true) :
    updateUncommittedBlockStructures segwitActive
        ({ coinbaseTx script nHeight nValue with vout := vout } :: txs) =
      committedCoinbase segwitActive nHeight vout :: txs := by
  rw [updateUncommittedBlockStructures, getWitnessCommitmentIndex_isSome, hc]
  cases segwitActive <;> simp [coinbaseTx, committedCoinbase, CTransaction.hasWitness]

theorem isWitnessCommitment_root (root : Uint256) :
    isWitnessCommitment ([0x6a, 0x24, 0xaa, 0x21, 0xa9, 0xed] ++ root.val) = true := by
  simp [isWitnessCommitment, minimumWitnessCommitment, root.property]

theorem generateCoinbaseCommitment_eq (h : Hashes) (segwitActive : Bool) (script : CScript)
    (nHeight : Nat) (nValue : Int) (txs : List CTransaction) :
    ∃ coinbase, (generateCoinbaseCommitment h segwitActive
        (coinbaseTx script nHeight nValue :: txs)).1 = coinbase :: txs ∧
      getTransactionWeight coinbase = coinbaseWeight script nHeight segwitActive := by
  have hindex : (getWitnessCommitmentIndex (coinbaseTx script nHeight nValue :: txs)).isSome =
      isWitnessCommitment script := by
    rw [getWitnessCommitmentIndex_isSome]
    simp [coinbaseTx]
  have h1 : getSizeOfCompactSize 1 = 1 := rfl
  have h2 : getSizeOfCompactSize 2 = 1 := rfl
  cases hc : isWitnessCommitment script with
  | true =>
    obtain ⟨o, ho⟩ := Option.isSome_iff_exists.mp (hindex.trans hc)
    refine ⟨committedCoinbase segwitActive nHeight [⟨nValue, script⟩], ?_, ?_⟩
    · simp only [generateCoinbaseCommitment, ho]
      exact updateUncommitted_coinbaseTx script nValue (by simpa using hc)
    · rw [committedCoinbase_weight, coinbaseWeight, hc]
      simp only [List.length_singleton, List.map_singleton, List.sum_singleton,
        CTxOut.serialize_length, if_true, witnessScaleFactor]
      omega
  | false =>
    have ho : getWitnessCommitmentIndex (coinbaseTx script nHeight nValue :: txs) = none := by
      rw [hc] at hindex
      simpa using hindex
    let root := hash256 h ((blockWitnessMerkleRoot h (coinbaseTx script nHeight nValue :: txs)).val ++
      List.replicate 32 0)
    have hroot : root.val.length = 32 := root.property
    have h38 : getSizeOfCompactSize 38 = 1 := rfl
    refine ⟨committedCoinbase segwitActive nHeight
      [⟨nValue, script⟩, ⟨0, [0x6a, 0x24, 0xaa, 0x21, 0xa9, 0xed] ++ root.val⟩], ?_, ?_⟩
    · simp only [generateCoinbaseCommitment, ho]
      refine updateUncommitted_coinbaseTx script nValue ?_
      rw [List.any_append, List.any_cons, isWitnessCommitment_root root, Bool.true_or, Bool.or_true]
    · rw [committedCoinbase_weight, coinbaseWeight, hc]
      simp only [List.length_cons, List.length_nil, List.map_cons, List.map_nil, List.sum_cons,
        List.sum_nil, CTxOut.serialize_length, List.length_append, hroot, h2, h38,
        Bool.false_eq_true, if_false, witnessScaleFactor]
      omega

variable {block : CBlock}

theorem getBlockWeight_of_coinbase {coinbase : CTransaction}
    {txs : List CTransaction} (hvtx : block.vtx = coinbase :: txs) :
    getBlockWeight block = weightWithTail (getTransactionWeight coinbase) txs.length
      (txs.map getTransactionWeight).sum block.quantumSignatures.serialize.length := by
  simp [getBlockWeight_eq, hvtx, weightWithTail]

theorem checkBlockWeight_ok_iff :
    checkBlockWeight block = .ok () ↔ getBlockWeight block ≤ maxBlockWeight := by
  rw [checkBlockWeight]
  simp

theorem four_mul_length_le_weight (vtx : List CTransaction) :
    4 * vtx.length ≤ (vtx.map getTransactionWeight).sum := by
  induction vtx with
  | nil => exact Nat.le_refl 0
  | cons tx vtx ih =>
    have htx : 4 ≤ getTransactionWeight tx := by
      rw [getTransactionWeight_eq, CTransaction.serialize_false_length, witnessScaleFactor]
      omega
    simp only [List.length_cons, List.map_cons, List.sum_cons]
    omega

theorem checkBlockSize_of_weight (hne : block.vtx ≠ [])
    (hw : getBlockWeight block ≤ maxBlockWeight) : checkBlockSize block = .ok () := by
  have hlength := four_mul_length_le_weight block.vtx
  have hstripped := block.serialize_false_le
  rw [checkBlockSize_ok_iff]
  refine ⟨hne, ?_, ?_⟩
  · rw [getBlockWeight_eq] at hw
    simp only [witnessScaleFactor] at hw ⊢
    omega
  · simp only [getBlockWeight, witnessScaleFactor] at hw ⊢
    omega

section
variable {env : NodeEnv} {ctx : TemplateContext} {options : BlockAssemblerOptions}
  {mempool : CTxMemPool} {validity : ValidityTest} {template : CBlockTemplate}

theorem createNewBlock_ok_iff : createNewBlock env ctx options mempool validity = .ok template ↔
      assembleBlock env ctx options mempool = some template ∧
        (options.testBlockValidity = true → validity.test template.block = .ok ()) := by
  cases ha : assembleBlock env ctx options mempool with
  | none => simp [createNewBlock, ha]
  | some t =>
    cases ht : options.testBlockValidity with
    | false => simp [createNewBlock, ha, ht]
    | true =>
      cases hv : validity.test t.block with
      | error e =>
        simp only [createNewBlock, ha, ht, hv, if_true, reduceCtorEq, Option.some.injEq, false_iff, not_and]
        rintro rfl
        simp [hv]
      | ok u =>
        simp only [createNewBlock, ha, ht, hv, if_true, Except.ok.injEq, Option.some.injEq, true_imp_iff]
        constructor
        · rintro rfl
          exact ⟨rfl, hv⟩
        · exact fun hand => hand.1

def templateCoinbaseWeight (env : NodeEnv) (ctx : TemplateContext) (options : BlockAssemblerOptions) : Nat :=
  coinbaseWeight options.coinbaseOutputScript (ctx.pindexPrev.nHeight + 1)
    (env.segwitHeight ≤ ctx.pindexPrev.nHeight + 1)

theorem assembleBlock_eq (env : NodeEnv) (ctx : TemplateContext) (options : BlockAssemblerOptions)
    (mempool : CTxMemPool) :
    ∃ template coinbase, assembleBlock env ctx options mempool = some template ∧
      template.block.vtx = coinbase :: (selectTransactions ctx (clampOptions options) mempool).vtx ∧
      getTransactionWeight coinbase = templateCoinbaseWeight env ctx options ∧
      template.block.quantumSignatures = QuantumSignatureData.null := by
  obtain ⟨nBits, hbits, -⟩ := getNextWorkRequired_spec ctx.pindexPrev
    (updateTime env.params ctx.pindexPrev ctx.now).toNat env.params
  obtain ⟨coinbase, hvtx, hweight⟩ := generateCoinbaseCommitment_eq env.hashes
    (env.segwitHeight ≤ ctx.pindexPrev.nHeight + 1) options.coinbaseOutputScript
    (ctx.pindexPrev.nHeight + 1)
    ((selectTransactions ctx (clampOptions options) mempool).nFees +
      getBlockSubsidy env.chain (ctx.pindexPrev.nHeight + 1))
    (selectTransactions ctx (clampOptions options) mempool).vtx
  cases ha : assembleBlock env ctx options mempool with
  | none => simp [assembleBlock, hbits] at ha
  | some template =>
    simp only [assembleBlock, hbits, Option.bind_eq_bind, Option.bind_some, Option.some.injEq] at ha
    subst ha
    exact ⟨_, coinbase, rfl, hvtx, hweight, rfl⟩
end

end Byze
