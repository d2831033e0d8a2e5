import Byze.ConnectBlock

/-! The money supply: no chain of connected blocks leaves more in its coins than
the subsidies of its blocks, and no amount overflows on the way. -/

namespace Byze
open ExceptEq MapTotal

section

abbrev Counts {α : Type} (P : α → Prop) (x : Connect α) : Prop := Ends (· ≠ .overflow) P x

theorem moneyRange_iff {n : Int} : moneyRange n = true ↔ 0 ≤ n ∧ n ≤ maxMoney := by
  simp [moneyRange]

theorem moneyRange_zero : moneyRange 0 = true := by decide

variable {α : Type}

variable {P : α → Prop}

theorem counts_error {e : ConnectStop} (he : e ≠ .overflow) : Counts P (throw e : Connect α) := he

theorem counts_rejectBlock (reason : String) :
    Counts P (rejectBlock reason : Connect α) := counts_error ConnectStop.noConfusion

theorem counts_exception (what : String) :
    Counts P (throw (.exception what) : Connect α) := counts_error ConnectStop.noConfusion

theorem counts_assertion : Counts P (throw .assertion : Connect α) :=
  counts_error ConnectStop.noConfusion

theorem counts_addAmount {a b : Int} (ha : -maxMoney ≤ a ∧ a ≤ maxMoney)
    (hb : -maxMoney ≤ b ∧ b ≤ maxMoney) : Counts (· = a + b) (addAmount a b) := by
  have hrange : -2 ^ 63 ≤ a + b ∧ a + b < 2 ^ 63 := by
    simp only [maxMoney] at ha hb
    omega
  rw [addAmount, if_pos hrange]
  exact rfl

def sumValues (vout : List CTxOut) : Int := (vout.map CTxOut.nValue).sum

theorem counts_sumValueOut {n : Int} (vout : List CTxOut) (hn : moneyRange n = true) :
    Counts (fun sum => sum = n + sumValues vout ∧ moneyRange sum = true) (sumValueOut n vout) := by
  induction vout generalizing n with
  | nil => exact ⟨(Int.add_zero n).symm, hn⟩
  | cons txout vout ih =>
    refine Ends.ite (fun _ => counts_exception _) fun hvalue => ?_
    have hvalue' : moneyRange txout.nValue = true := by simpa using hvalue
    rw [moneyRange_iff] at hn hvalue'
    refine (counts_addAmount (by omega) (by omega)).bind fun sum hsum => ?_
    refine Ends.ite (fun _ => counts_exception _) fun hrange => ?_
    refine (ih (by simpa using hrange)).mono fun total htotal => ⟨?_, htotal.2⟩
    rw [htotal.1, sumValues, sumValues, List.map_cons, List.sum_cons]
    omega

theorem counts_getValueOut (tx : CTransaction) :
    Counts (fun sum => sum = sumValues tx.vout ∧ moneyRange sum = true) tx.getValueOut := by
  refine (counts_sumValueOut tx.vout moneyRange_zero).mono fun sum hsum => ⟨?_, hsum.2⟩
  simp [hsum.1]
end

section

abbrev InRange (view : CoinsView) : Prop :=
  Holds (fun coin : Coin => 0 ≤ coin.out.nValue ∧ coin.out.nValue ≤ maxMoney) view

def CoinsView.total (view : CoinsView) : Int := MapTotal.total (fun coin : Coin => coin.out.nValue) view

def CoinsView.valueAt (view : CoinsView) (txin : CTxIn) : Int :=
  ((view.lookup txin.prevout).map fun coin => coin.out.nValue).getD 0

variable {view : CoinsView}

theorem InRange.nonneg (h : InRange view) : Holds (fun coin : Coin => 0 ≤ coin.out.nValue) view :=
  fun a coin hcoin => (h a coin hcoin).1

theorem counts_sumInputs (hview : InRange view) (nSpendHeight : Nat) {n : Int} (vin : List CTxIn)
    (hn : moneyRange n = true) :
    Counts (fun sum => sum = n + (vin.map view.valueAt).sum ∧ moneyRange sum = true)
      (view.sumInputs nSpendHeight n vin) := by
  induction vin generalizing n with
  | nil => exact ⟨(Int.add_zero n).symm, hn⟩
  | cons txin vin ih =>
    rw [CoinsView.sumInputs]
    cases hcoin : view.lookup txin.prevout with
    | none => exact counts_assertion
    | some coin =>
      refine Ends.ite (fun _ => counts_rejectBlock _) fun _ => ?_
      have hvalue := hview _ coin hcoin
      rw [moneyRange_iff] at hn
      refine (counts_addAmount (by omega) (by omega)).bind fun sum hsum => ?_
      refine Ends.ite (fun _ => counts_rejectBlock _) fun hrange => ?_
      have hsumRange : moneyRange sum = true := by
        simp only [Bool.or_eq_true, Bool.not_eq_true', not_or, Bool.not_eq_false] at hrange
        exact hrange.2
      refine (ih hsumRange).mono fun total htotal => ⟨?_, htotal.2⟩
      rw [List.map_cons, List.sum_cons, CoinsView.valueAt, hcoin, Option.map_some, Option.getD_some]
      omega

theorem counts_checkTxInputs (hview : InRange view) (tx : CTransaction) (nSpendHeight : Nat) :
    Counts (fun fee => fee = (tx.vin.map view.valueAt).sum - sumValues tx.vout ∧
      moneyRange fee = true) (view.checkTxInputs tx nSpendHeight) := by
  refine Ends.ite (fun _ => counts_rejectBlock _) fun _ => ?_
  refine (counts_sumInputs hview nSpendHeight tx.vin moneyRange_zero).bind fun nValueIn hin => ?_
  refine (counts_getValueOut tx).bind fun valueOut hout => ?_
  refine Ends.ite (fun _ => counts_rejectBlock _) fun _ => ?_
  have hinRange := moneyRange_iff.mp hin.2
  have houtRange := moneyRange_iff.mp hout.2
  refine (counts_addAmount (by omega) (by omega)).bind fun fee hfee => ?_
  refine Ends.ite (fun _ => counts_rejectBlock _) fun hrange => ?_
  refine ⟨?_, by simpa using hrange⟩
  omega

theorem addCoin_cases (fetched : COutPoint → Bool) (outpoint : COutPoint) (coin : Coin)
    (possibleOverwrite : Bool) (view : CoinsView) :
    Counts (fun view' => view' = view ∨ view' = view.insert outpoint coin)
      (addCoin fetched outpoint coin possibleOverwrite view) := by
  refine Ends.ite (fun _ => counts_assertion) fun _ => ?_
  refine Ends.ite (fun _ => Or.inl rfl) fun _ => ?_
  exact Ends.ite (fun _ => counts_exception _) fun _ => Or.inr rfl

theorem counts_addCoinsFrom (fetched : COutPoint → Bool) (txid : Uint256) (fCoinbase : Bool)
    (nHeight n : Nat) {vout : List CTxOut} {view : CoinsView} (hview : InRange view)
    (hvout : ∀ txout ∈ vout, 0 ≤ txout.nValue ∧ txout.nValue ≤ maxMoney) :
    Counts (fun view' => InRange view' ∧ view'.total ≤ view.total + sumValues vout)
      (addCoinsFrom fetched txid fCoinbase nHeight n vout view) := by
  induction vout generalizing n view with
  | nil =>
    refine ⟨hview, ?_⟩
    simp [sumValues]
  | cons txout vout ih =>
    have hout := hvout txout List.mem_cons_self
    have hvout' : ∀ txout ∈ vout, 0 ≤ txout.nValue ∧ txout.nValue ≤ maxMoney :=
      fun txout hmem => hvout txout (List.mem_cons_of_mem _ hmem)
    have hsum : sumValues (txout :: vout) = txout.nValue + sumValues vout := by simp [sumValues]
    refine (addCoin_cases _ _ _ _ _).bind fun view' hview' => ?_
    rcases hview' with rfl | rfl
    · refine (ih (n + 1) hview hvout').mono fun view'' h => ⟨h.1, ?_⟩
      omega
    · have hinsert := total_insert_le hview.nonneg ⟨txid, UInt32.ofNat n⟩ ⟨txout, fCoinbase, nHeight⟩
      refine (ih (n + 1) (hview.insert _ hout) hvout').mono fun view'' h => ⟨h.1, ?_⟩
      have := h.2
      simp only [CoinsView.total] at this hinsert ⊢
      omega

theorem counts_spendCoins {vin : List CTxIn} {view : CoinsView} (hview : InRange view) :
    Counts (fun view' => InRange view' ∧ (∀ txin ∈ vin, view.haveCoin txin.prevout = true) ∧
      view'.total + (vin.map view.valueAt).sum = view.total) (spendCoins vin view) := by
  induction vin generalizing view with
  | nil => exact ⟨hview, by simp, by simp⟩
  | cons txin vin ih =>
    refine Ends.ite (fun hhave => ?_) fun _ => counts_assertion
    obtain ⟨coin, hcoin⟩ := Option.isSome_iff_exists.mp hhave
    refine (ih (hview.erase txin.prevout)).mono fun view' hview' => ?_
    obtain ⟨hrange, hrest, htotal⟩ := hview'
    have hne : ∀ other ∈ vin, other.prevout ≠ txin.prevout := by
      intro other hmem he
      have hother := hrest other hmem
      rw [CoinsView.haveCoin, he, AList.lookup_erase] at hother
      cases hother
    have hvalues : vin.map (CoinsView.valueAt (view.erase txin.prevout)) = vin.map view.valueAt := by
      refine List.map_congr_left fun other hmem => ?_
      rw [CoinsView.valueAt, CoinsView.valueAt, AList.lookup_erase_ne (hne other hmem)]
    have hvalue : view.valueAt txin = coin.out.nValue := by
      rw [CoinsView.valueAt, hcoin]
      rfl
    have herase : CoinsView.total (view.erase txin.prevout) + coin.out.nValue = view.total :=
      total_erase_add hcoin
    refine ⟨hrange, ?_, ?_⟩
    · intro other hmem
      rcases List.mem_cons.mp hmem with rfl | hmem
      · exact hhave
      · have hother := hrest other hmem
        rwa [CoinsView.haveCoin, AList.lookup_erase_ne (hne other hmem)] at hother
    · rw [hvalues] at htotal
      rw [List.map_cons, List.sum_cons]
      omega

theorem checkOutputValues_ok {n : Int} {vout : List CTxOut} (h : checkOutputValues n vout = .ok ()) :
    ∀ txout ∈ vout, 0 ≤ txout.nValue ∧ txout.nValue ≤ maxMoney := by
  induction vout generalizing n with
  | nil => simp
  | cons txout vout ih =>
    simp only [checkOutputValues, throw_eq_error, ite_error_eq_ok_iff] at h
    intro other hmem
    rcases List.mem_cons.mp hmem with rfl | hmem
    · exact ⟨Int.not_lt.mp h.1, Int.not_lt.mp h.2.1⟩
    · exact ih h.2.2.2 other hmem

theorem checkTransaction_outputs {tx : CTransaction} (h : checkTransaction tx = .ok ()) :
    ∀ txout ∈ tx.vout, 0 ≤ txout.nValue ∧ txout.nValue ≤ maxMoney := by
  simp only [checkTransaction, throw_eq_error, error_bind, ite_error_eq_ok_iff, unit_bind_eq_ok_iff] at h
  exact checkOutputValues_ok h.2.2.2.1

theorem checkTransactions_mem {vtx : List CTransaction} (h : checkTransactions vtx = .ok ()) :
    ∀ tx ∈ vtx, checkTransaction tx = .ok () := by
  induction vtx with
  | nil => simp
  | cons tx vtx ih =>
    rw [checkTransactions] at h
    cases htx : checkTransaction tx with
    | error reason => simp [htx] at h
    | ok u =>
      rw [htx] at h
      intro other hmem
      rcases List.mem_cons.mp hmem with rfl | hmem
      · exact htx
      · exact ih h other hmem

theorem checkBlockTransactions_cases {vtx : List CTransaction} (h : checkBlockTransactions vtx = .ok ()) :
    ∃ coinbase rest, vtx = coinbase :: rest ∧ coinbase.isCoinBase = true ∧
      (∀ tx ∈ rest, tx.isCoinBase = false) ∧ ∀ tx ∈ vtx, checkTransaction tx = .ok () := by
  cases vtx with
  | nil => simp [checkBlockTransactions] at h
  | cons coinbase rest =>
    simp only [checkBlockTransactions, throw_eq_error, error_bind, ite_error_eq_ok_iff,
      unit_bind_eq_ok_iff] at h
    obtain ⟨hcoinbase, hrest, htxs, -⟩ := h
    refine ⟨coinbase, rest, rfl, by simpa using hcoinbase, ?_, checkTransactions_mem htxs⟩
    simpa using hrest
end

section
variable {env : ConnectEnv} {pprev pindex : CBlockIndex} {call : ConnectCall} {tx : CTransaction}
  {st : ConnectState}

theorem counts_spentCoins (view : CoinsView) (vin : List CTxIn) :
    Counts (fun _ => True) (spentCoins view vin) := by
  refine Ends.mapM fun txin _ => ?_
  cases view.lookup txin.prevout with
  | none => exact counts_assertion
  | some coin => exact trivial

theorem counts_calculateSequenceLocks (block : CBlockIndex) (inputs : List (CTxIn × Nat))
    (locks : Int × Int) : Counts (fun _ => True) (calculateSequenceLocks block inputs locks) := by
  induction inputs generalizing locks with
  | nil => exact trivial
  | cons input inputs ih =>
    obtain ⟨txin, nCoinHeight⟩ := input
    refine Ends.ite (fun _ => ih _) fun _ => Ends.ite (fun _ => ?_) fun _ => ih _
    cases block.getAncestor (nCoinHeight - 1) with
    | none => exact counts_assertion
    | some ancestor => exact ih _

theorem counts_countSigOps (tx : CTransaction) (st : ConnectState) :
    Counts (fun _ => True) (countSigOps tx st) := by
  have hcost : Counts (fun _ => True) (getTransactionSigOpCost st.view tx) :=
    Ends.ite (fun _ => trivial) fun _ => (counts_spentCoins _ _).bind fun _ _ => trivial
  exact hcost.bind fun _ _ => Ends.ite (fun _ => counts_rejectBlock _) fun _ => trivial

theorem counts_checkScripts (view : CoinsView) :
    Counts (fun _ => True) (checkScripts env pindex call tx view) := by
  refine Ends.ite (fun _ => ?_) fun _ => trivial
  refine (counts_spentCoins _ _).bind fun coins _ => Ends.forM fun p _ => ?_
  rcases checkInputScript env (getBlockScriptFlags env pindex.nHeight) tx (coins.map Coin.out) p.1 p.2
    with (e | _) | _
  · exact counts_rejectBlock _
  · exact counts_assertion
  · exact trivial

theorem counts_collectFees (hview : InRange st.view) (hfees : moneyRange st.nFees = true) :
    Counts (fun nFees => nFees = st.nFees + ((tx.vin.map st.view.valueAt).sum - sumValues tx.vout) ∧
      moneyRange nFees = true) (collectFees env pprev pindex tx st) := by
  refine (counts_checkTxInputs hview tx pindex.nHeight).bind fun txfee hfee => ?_
  have hfeesRange := moneyRange_iff.mp hfees
  have hfeeRange := moneyRange_iff.mp hfee.2
  refine (counts_addAmount (by omega) (by omega)).bind fun nFees hsum => ?_
  refine Ends.ite (fun _ => counts_rejectBlock _) fun hrange => ?_
  refine (counts_spentCoins _ _).bind fun coins _ => ?_
  have hlocks : Counts (fun _ => True) (sequenceLocks env pprev pindex tx (coins.map Coin.nHeight)) :=
    Ends.ite (fun _ => (counts_calculateSequenceLocks _ _ _).bind fun _ _ => trivial) fun _ => trivial
  refine hlocks.bind fun final _ => Ends.ite (fun _ => counts_rejectBlock _) fun _ => ?_
  exact ⟨by rw [hsum, hfee.1], by simpa using hrange⟩

variable (hview : InRange st.view)
  (hvout : ∀ txout ∈ tx.vout, 0 ≤ txout.nValue ∧ txout.nValue ≤ maxMoney)

include hview hvout in
theorem counts_updateCoins (nHeight : Nat) :
    Counts (fun view' => InRange view' ∧ view'.total ≤ st.view.total + sumValues tx.vout -
        (if tx.isCoinBase then 0 else (tx.vin.map st.view.valueAt).sum))
      (updateCoins call.fetched env.hashes tx nHeight st.view) := by
  cases hcoinbase : tx.isCoinBase with
  | true =>
    simp only [updateCoins, hcoinbase, if_true]
    refine (counts_addCoinsFrom _ _ _ _ _ hview hvout).mono fun view' h => ⟨h.1, ?_⟩
    omega
  | false =>
    simp only [updateCoins, hcoinbase, Bool.false_eq_true, if_false]
    refine (counts_spendCoins hview).bind fun view' hview' => ?_
    obtain ⟨hrange, -, hspent⟩ := hview'
    refine (counts_addCoinsFrom _ _ _ _ _ hrange hvout).mono fun view'' h => ⟨h.1, ?_⟩
    omega

include hview hvout in
theorem counts_connectCoinbase (hcoinbase : tx.isCoinBase = true) :
    Counts (fun st' => InRange st'.view ∧ st'.nFees = st.nFees ∧
      st'.view.total ≤ st.view.total + sumValues tx.vout)
      (connectTransaction env pprev pindex call tx st) := by
  simp only [connectTransaction, hcoinbase]
  refine (counts_countSigOps tx st).bind fun _ _ => (counts_checkScripts st.view).bind fun _ _ => ?_
  refine (counts_updateCoins hview hvout pindex.nHeight).bind fun view' h => ⟨h.1, rfl, ?_⟩
  have hle := h.2
  simp only [hcoinbase, if_true, Int.sub_zero] at hle
  exact hle

include hview hvout in
theorem counts_connectTransaction (hcoinbase : tx.isCoinBase = false) (hfees : moneyRange st.nFees = true) :
    Counts (fun st' => InRange st'.view ∧ moneyRange st'.nFees = true ∧
      st'.view.total + st'.nFees ≤ st.view.total + st.nFees)
      (connectTransaction env pprev pindex call tx st) := by
  simp only [connectTransaction, hcoinbase]
  refine (counts_collectFees hview hfees).bind fun nFees hnFees => ?_
  refine (counts_countSigOps tx st).bind fun _ _ => (counts_checkScripts st.view).bind fun _ _ => ?_
  refine (counts_updateCoins hview hvout pindex.nHeight).bind fun view' h => ⟨h.1, hnFees.2, ?_⟩
  simp only [hcoinbase, Bool.false_eq_true, if_false] at *
  omega

theorem counts_connectTransactions {vtx : List CTransaction} (hview : InRange st.view)
    (hfees : moneyRange st.nFees = true) (hcoinbase : ∀ tx ∈ vtx, tx.isCoinBase = false)
    (hvtx : ∀ tx ∈ vtx, checkTransaction tx = .ok ()) :
    Counts (fun st' => InRange st'.view ∧ moneyRange st'.nFees = true ∧
      st'.view.total + st'.nFees ≤ st.view.total + st.nFees)
      (connectTransactions env pprev pindex call vtx st) := by
  induction vtx generalizing st with
  | nil => exact ⟨hview, hfees, le_refl _⟩
  | cons tx vtx ih =>
    have hout := checkTransaction_outputs (hvtx tx List.mem_cons_self)
    refine (counts_connectTransaction hview hout (hcoinbase tx List.mem_cons_self) hfees).bind
      fun st' hst' => ?_
    obtain ⟨hview', hfees', hle⟩ := hst'
    refine (ih hview' hfees' (fun tx hmem => hcoinbase tx (List.mem_cons_of_mem _ hmem))
      fun tx hmem => hvtx tx (List.mem_cons_of_mem _ hmem)).mono fun st'' h => ⟨h.1, h.2.1, ?_⟩
    exact h.2.2.trans hle

theorem getBlockSubsidy_bounds (chain : ChainType) (nHeight : Nat) :
    0 ≤ getBlockSubsidy chain nHeight ∧ getBlockSubsidy chain nHeight ≤ maxMoney := by
  rw [getBlockSubsidy]
  split
  · decide
  · refine ⟨Int.natCast_nonneg _, ?_⟩
    have := Nat.div_le_self (50 * coin) (2 ^ (nHeight / subsidyHalvingInterval chain))
    simp only [coin, maxMoney] at this ⊢
    omega

theorem HeaderChain.index_nHeight (chain : HeaderChain) :
    (HeaderChain.index env chain).nHeight = chain.length := by
  induction chain with
  | nil => rfl
  | cons header chain ih => exact congrArg (· + 1) ih

theorem counts_connectBlock (chain : HeaderChain) {view : CoinsView} (hview : InRange view) :
    Counts (fun view' => InRange view' ∧
      view'.total ≤ view.total + getBlockSubsidy env.chain (chain.length + 1))
      (connectBlock env chain view call) := by
  have hsubsidy := getBlockSubsidy_bounds env.chain (chain.length + 1)
  rw [connectBlock]
  cases hcheck : checkBlock env.toNodeEnv call.block true true with
  | error r => exact Ends.ite (fun _ => counts_exception _) fun _ => counts_error ConnectStop.noConfusion
  | ok u =>
    refine Ends.ite (fun _ => ⟨hview, by omega⟩) fun _ => ?_
    obtain ⟨coinbase, rest, hvtx, hcoinbase, hrest, hchecked⟩ :=
      checkBlockTransactions_cases (checkBlock_ok_iff.mp hcheck).1.transactionsOk
    refine Ends.ite (fun _ => counts_rejectBlock _) fun _ => ?_
    have hloop : Counts (fun st => moneyRange st.nFees = true ∧ InRange st.view ∧
        st.view.total + st.nFees ≤ view.total + sumValues coinbase.vout)
        (connectTransactions env (HeaderChain.index env chain)
          (HeaderChain.index env (call.block.toCBlockHeader :: chain)) call call.block.vtx
          ⟨view, 0, 0⟩) := by
      rw [hvtx]
      rw [hvtx] at hchecked
      have hout := checkTransaction_outputs (hchecked coinbase List.mem_cons_self)
      refine (counts_connectCoinbase hview hout hcoinbase).bind fun st h => ?_
      obtain ⟨hst, hfees, hle⟩ := h
      have hzero : moneyRange st.nFees = true := by
        rw [hfees]
        exact moneyRange_zero
      refine (counts_connectTransactions hst hzero hrest
        fun tx hmem => hchecked tx (List.mem_cons_of_mem _ hmem)).mono fun st' h => ?_
      refine ⟨h.2.1, h.1, ?_⟩
      have := h.2.2
      simp only [hfees] at this
      simp only at hle
      omega
    refine hloop.bind fun st h => ?_
    obtain ⟨hfees, hst, hle⟩ := h
    rw [HeaderChain.index_nHeight, List.length_cons]
    have hfeesRange := moneyRange_iff.mp hfees
    refine (counts_addAmount (by omega) (by omega)).bind fun blockReward hreward => ?_
    rw [hvtx]
    refine (counts_getValueOut coinbase).bind fun valueOut hvalue => ?_
    refine Ends.ite (fun _ => counts_rejectBlock _) fun hpays => ?_
    refine Ends.ite (fun _ => counts_exception _) fun _ => ⟨hst, ?_⟩
    omega

theorem sum_halving_le (a n : Nat) {m : Nat} (hm : 0 < m) :
    ∑ i ∈ Finset.range n, a / 2 ^ (i / m) ≤ 2 * m * a := by
  have hperiods : ∀ q, ∑ i ∈ Finset.range (m * q), a / 2 ^ (i / m) = m * ∑ j ∈ Finset.range q, a / 2 ^ j := by
    intro q
    induction q with
    | zero => simp
    | succ q ih =>
      have hsame : ∀ i ∈ Finset.range m, a / 2 ^ ((m * q + i) / m) = a / 2 ^ q := by
        intro i hi
        rw [Nat.mul_add_div hm, Nat.div_eq_of_lt (Finset.mem_range.mp hi), Nat.add_zero]
      rw [Nat.mul_succ, Finset.sum_range_add, ih, Finset.sum_congr rfl hsame, Finset.sum_range_succ, Nat.mul_add]
      simp
  calc ∑ i ∈ Finset.range n, a / 2 ^ (i / m) ≤ ∑ i ∈ Finset.range (m * n), a / 2 ^ (i / m) :=
        Finset.sum_le_sum_of_subset (Finset.range_mono (Nat.le_mul_of_pos_left n hm))
    _ = m * ∑ j ∈ Finset.range n, a / 2 ^ j := hperiods n
    _ ≤ m * (a * 2 / (2 - 1)) := Nat.mul_le_mul_left m (Nat.geom_sum_le le_rfl a n)
    _ = 2 * m * a := by simp; ring

theorem getBlockSubsidy_le (chain : ChainType) (nHeight : Nat) : getBlockSubsidy chain nHeight ≤
      (50 * coin / 2 ^ (nHeight / subsidyHalvingInterval chain) : Nat) := by
  rw [getBlockSubsidy, Nat.shiftRight_eq_div_pow]
  split
  · exact Int.natCast_nonneg _
  · exact le_refl _

theorem sum_getBlockSubsidy_le (chain : ChainType) (n : Nat) :
    ∑ h ∈ Finset.Icc 1 n, getBlockSubsidy chain h ≤ maxMoney := by
  have hm : 0 < subsidyHalvingInterval chain ∧ subsidyHalvingInterval chain ≤ 210000 := by
    cases chain <;> simp [subsidyHalvingInterval]
  have hsub : Finset.Icc 1 n ⊆ Finset.range (n + 1) := by
    intro h hmem
    rw [Finset.mem_Icc] at hmem
    rw [Finset.mem_range]
    omega
  have hseries := sum_halving_le (50 * coin) (n + 1) hm.1
  calc ∑ h ∈ Finset.Icc 1 n, getBlockSubsidy chain h ≤ ∑ h ∈ Finset.range (n + 1), getBlockSubsidy chain h :=
        Finset.sum_le_sum_of_subset_of_nonneg hsub fun h _ _ => (getBlockSubsidy_bounds chain h).1
    _ ≤ ∑ h ∈ Finset.range (n + 1), ((50 * coin / 2 ^ (h / subsidyHalvingInterval chain) : Nat) : Int) :=
        Finset.sum_le_sum fun h _ => getBlockSubsidy_le chain h
    _ ≤ maxMoney := by
        rw [← Nat.cast_sum]
        simp only [coin, maxMoney] at hseries ⊢
        omega

theorem counts_connectChain (calls : List ConnectCall) : Counts (fun view => InRange view ∧
      view.total ≤ ∑ h ∈ Finset.Icc 1 calls.length, getBlockSubsidy env.chain h)
      (connectChain env calls) := by
  induction calls with
  | nil => exact ⟨holds_empty, by simp [CoinsView.total, total]⟩
  | cons call calls ih =>
    refine ih.bind fun view h => ?_
    obtain ⟨hview, htotal⟩ := h
    refine (counts_connectBlock _ hview).mono fun view' h => ⟨h.1, ?_⟩
    have hle := h.2
    rw [List.length_map] at hle
    rw [List.length_cons, Finset.sum_Icc_succ_top (by omega)]
    omega

theorem checkOutputValues_sum {n : Int} {vout : List CTxOut} (hn : 0 ≤ n ∧ n ≤ maxMoney)
    (h : checkOutputValues n vout = .ok ()) :
    0 ≤ n + sumValues vout ∧ n + sumValues vout ≤ maxMoney := by
  induction vout generalizing n with
  | nil => simpa [sumValues] using hn
  | cons txout vout ih =>
    simp only [checkOutputValues, throw_eq_error, ite_error_eq_ok_iff] at h
    have hsum := ih (moneyRange_iff.mp (by simpa using h.2.2.1)) h.2.2.2
    rw [sumValues, List.map_cons, List.sum_cons, ← Int.add_assoc]
    exact hsum
end

/-- The coins of a chain of connected blocks are worth no more than the
subsidies of its blocks, and these add up to no more than the maximum. No
amount overflows, also not when a transaction's outputs are added up on their
own. -/
theorem connectChain_moneySupply (env : ConnectEnv) (calls : List ConnectCall) :
    connectChain env calls ≠ .error .overflow ∧ (∀ view, connectChain env calls = .ok view →
        view.total ≤ ∑ h ∈ Finset.Icc 1 calls.length, getBlockSubsidy env.chain h) ∧
      (∀ n, ∑ h ∈ Finset.Icc 1 n, getBlockSubsidy env.chain h ≤ maxMoney) ∧
      ∀ (vout : List CTxOut) (txout : CTxOut), checkOutputValues 0 vout = .ok () →
        0 ≤ txout.nValue → txout.nValue ≤ maxMoney → sumValues vout + txout.nValue < 2 ^ 63 := by
  have hchain := @counts_connectChain env calls
  refine ⟨?_, ?_, sum_getBlockSubsidy_le env.chain, ?_⟩
  · intro hoverflow
    rw [hoverflow] at hchain
    exact hchain rfl
  · intro view hview
    rw [hview] at hchain
    exact hchain.2
  · intro vout txout hvout hnonneg hle
    have hsum := checkOutputValues_sum ⟨le_refl 0, by decide⟩ hvout
    simp only [maxMoney] at hsum hle
    omega

def sampleConnectEnv : ConnectEnv where
  hashes := sampleHashes
  oqs := sampleVerify
  getHash _ := Uint256.zero
  chain := .regtest false
  hashGenesisBlock := Uint256.fill 1
  enforceQuantumBlockSigs := false
  signetBlocks := false
  checkSignetBlockSolution _ _ := true
  bip34Height := 1
  bip65Height := 1
  bip66Height := 1
  csvHeight := 1
  segwitHeight := 0
  ops := sampleLegacyOps

def sampleCoinbase : CTransaction :=
  ⟨1, [⟨⟨Uint256.zero, 0xffffffff⟩, [0x51, 0x51], 0xffffffff, []⟩], [⟨50 * coin, [0x51]⟩], 0⟩

def sampleFirstBlock : ConnectCall where
  block := ⟨⟨4, Uint256.fill 1, Uint256.fill 1, 1777343705, 0x207fffff, 0⟩, [sampleCoinbase], .null⟩
  fScriptChecks := true
  fetched _ := true
  undoWritten := true

/-- One block that pays itself the first subsidy of regtest. -/
theorem connectChain_moneySupply_first :
    CoinsView.total (AList.singleton ⟨Uint256.fill 1, 0⟩ ⟨⟨50 * coin, [0x51]⟩, true, 1⟩) ≤
      ∑ h ∈ Finset.Icc 1 1, getBlockSubsidy (.regtest false) h :=
  (connectChain_moneySupply sampleConnectEnv [sampleFirstBlock]).2.1 _ (by decide +kernel)

end Byze
