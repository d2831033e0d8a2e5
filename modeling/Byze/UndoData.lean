import Byze.MoneySupply

/-! The undo data of a block: the coins that its transactions spend, as they
were before they were spent. -/

namespace Byze
open ExceptEq MapTotal

structure CTxUndo where
  vprevout : List Coin
  deriving DecidableEq

structure CBlockUndo where
  vtxundo : List CTxUndo
  deriving DecidableEq

def spendCoinsUndo : List CTxIn → CoinsView → Connect (CoinsView × List Coin)
  | [], view => pure (view, [])
  | txin :: vin, view =>
    match view.lookup txin.prevout with
    | none => throw .assertion
    | some coin => do
      let spent ← spendCoinsUndo vin (view.erase txin.prevout)
      pure (spent.1, coin :: spent.2)

section
variable (fetched : COutPoint → Bool) (h : Hashes)

def updateCoinsUndo (tx : CTransaction) (nHeight : Nat) (view : CoinsView) :
    Connect (CoinsView × CTxUndo) := do
  let spent ← if tx.isCoinBase then pure (view, []) else spendCoinsUndo tx.vin view
  let view ← addCoins fetched h tx nHeight spent.1
  pure (view, ⟨spent.2⟩)

def updateAllCoins (nHeight : Nat) : List CTransaction → CoinsView → Connect (CoinsView × List CTxUndo)
  | [], view => pure (view, [])
  | tx :: vtx, view => do
    let first ← updateCoinsUndo fetched h tx nHeight view
    let rest ← updateAllCoins nHeight vtx first.1
    pure (rest.1, first.2 :: rest.2)

/-- What connecting a block does to the coins, with its undo data. That of the
first transaction is thrown away. -/
def connectUndo (nHeight : Nat) (vtx : List CTransaction) (view : CoinsView) :
    Connect (CoinsView × CBlockUndo) := do
  let all ← updateAllCoins fetched h nHeight vtx view
  pure (all.1, ⟨all.2.tail⟩)
end

section
variable {vin : List CTxIn} {view view' : CoinsView} {vprevout : List Coin}

theorem spendCoinsUndo_of_spendCoins (hok : spendCoins vin view = .ok view') :
    ∃ vprevout, spendCoinsUndo vin view = .ok (view', vprevout) := by
  induction vin generalizing view with
  | nil =>
    cases hok
    exact ⟨[], rfl⟩
  | cons txin vin ih =>
    cases hcoin : view.lookup txin.prevout with
    | none => simp [spendCoins, CoinsView.haveCoin, hcoin] at hok
    | some coin =>
      have hrest : spendCoins vin (view.erase txin.prevout) = .ok view' := by
        simpa [spendCoins, CoinsView.haveCoin, hcoin] using hok
      obtain ⟨vprevout, hundo⟩ := ih hrest
      exact ⟨coin :: vprevout, by simp [spendCoinsUndo, hcoin, hundo]⟩

theorem spendCoinsUndo_cons {txin : CTxIn} (hok : spendCoinsUndo (txin :: vin) view = .ok (view', vprevout)) :
    ∃ coin rest, view.lookup txin.prevout = some coin ∧ vprevout = coin :: rest ∧
      spendCoinsUndo vin (view.erase txin.prevout) = .ok (view', rest) := by
  cases hcoin : view.lookup txin.prevout with
  | none => simp [spendCoinsUndo, hcoin] at hok
  | some coin =>
    simp only [spendCoinsUndo, hcoin] at hok
    obtain ⟨spent, hspent, hok⟩ := bind_eq_ok_iff.mp hok
    cases hok
    exact ⟨coin, spent.2, rfl, rfl, hspent⟩

theorem spendCoinsUndo_length (hok : spendCoinsUndo vin view = .ok (view', vprevout)) :
    vprevout.length = vin.length := by
  induction vin generalizing view vprevout with
  | nil =>
    cases hok
    rfl
  | cons txin vin ih =>
    obtain ⟨coin, rest, -, rfl, hrest⟩ := spendCoinsUndo_cons hok
    simp [ih hrest]

theorem spendCoinsUndo_mem (hok : spendCoinsUndo vin view = .ok (view', vprevout)) :
    ∀ coin ∈ vprevout, ∃ txin ∈ vin, view.lookup txin.prevout = some coin := by
  induction vin generalizing view vprevout with
  | nil =>
    cases hok
    simp
  | cons txin vin ih =>
    obtain ⟨coin, rest, hcoin, rfl, hrest⟩ := spendCoinsUndo_cons hok
    intro other hmem
    rcases List.mem_cons.mp hmem with rfl | hmem
    · exact ⟨txin, List.mem_cons_self, hcoin⟩
    · obtain ⟨txin', hin, hlookup⟩ := ih hrest other hmem
      rw [lookup_erase_eq] at hlookup
      split at hlookup
      · cases hlookup
      · exact ⟨txin', List.mem_cons_of_mem _ hin, hlookup⟩

theorem holds_of_spendCoinsUndo {P : Coin → Prop} (hview : Holds P view)
    (hok : spendCoinsUndo vin view = .ok (view', vprevout)) : Holds P view' := by
  induction vin generalizing view vprevout with
  | nil =>
    cases hok
    exact hview
  | cons txin vin ih =>
    obtain ⟨coin, rest, -, -, hrest⟩ := spendCoinsUndo_cons hok
    exact ih (hview.erase _) hrest
end

section
variable {fetched : COutPoint → Bool} {view view' : CoinsView}

theorem addCoin_ok {outpoint : COutPoint} {coin : Coin} {possibleOverwrite : Bool}
    (hok : addCoin fetched outpoint coin possibleOverwrite view = .ok view') :
    (isUnspendable coin.out.scriptPubKey = true ∧ view' = view) ∨
      (isUnspendable coin.out.scriptPubKey = false ∧ view' = view.insert outpoint coin ∧
        (possibleOverwrite = false → fetched outpoint = true → view.lookup outpoint = none)) := by
  simp only [addCoin, throw_eq_error, ite_error_eq_ok_iff] at hok
  obtain ⟨-, hok⟩ := hok
  cases hunspendable : isUnspendable coin.out.scriptPubKey with
  | true =>
    rw [hunspendable] at hok
    cases hok
    exact .inl ⟨rfl, rfl⟩
  | false =>
    rw [hunspendable, if_neg Bool.false_ne_true, ite_error_eq_ok_iff] at hok
    obtain ⟨hfresh, hok⟩ := hok
    cases hok
    refine .inr ⟨rfl, rfl, fun hoverwrite hfetched => ?_⟩
    simpa [hoverwrite, hfetched, CoinsView.haveCoin] using hfresh

variable (txid : Uint256) (fCoinbase : Bool) (nHeight : Nat)

def createdCoin : Nat → List CTxOut → COutPoint → Option Coin
  | _, [], _ => none
  | n, txout :: vout, outpoint =>
    if outpoint = ⟨txid, UInt32.ofNat n⟩ then
      if isUnspendable txout.scriptPubKey then none else some ⟨txout, fCoinbase, nHeight⟩
    else createdCoin (n + 1) vout outpoint

variable {txid fCoinbase nHeight} {n : Nat} {vout : List CTxOut} {outpoint : COutPoint} {coin : Coin}

theorem createdCoin_some (hcoin : createdCoin txid fCoinbase nHeight n vout outpoint = some coin) :
    ∃ i < vout.length, outpoint = ⟨txid, UInt32.ofNat (n + i)⟩ ∧
      isUnspendable coin.out.scriptPubKey = false ∧ coin.nHeight = nHeight := by
  induction vout generalizing n with
  | nil => simp [createdCoin] at hcoin
  | cons txout vout ih =>
    rw [createdCoin] at hcoin
    split at hcoin
    case isTrue heq =>
      split at hcoin
      · cases hcoin
      case isFalse hspendable =>
        cases hcoin
        exact ⟨0, Nat.succ_pos _, heq, by simpa using hspendable, rfl⟩
    case isFalse =>
      obtain ⟨i, hi, heq, hcoin⟩ := ih hcoin
      refine ⟨i + 1, Nat.succ_lt_succ hi, ?_, hcoin⟩
      rw [heq, Nat.add_assoc, Nat.add_comm 1 i]

theorem createdCoin_before {k : Nat} (hk : k < n) (hn : n + vout.length ≤ 2 ^ 32) :
    createdCoin txid fCoinbase nHeight n vout ⟨txid, UInt32.ofNat k⟩ = none := by
  cases hcoin : createdCoin txid fCoinbase nHeight n vout ⟨txid, UInt32.ofNat k⟩ with
  | none => rfl
  | some coin =>
    obtain ⟨i, hi, heq, -⟩ := createdCoin_some hcoin
    have hindex := congrArg UInt32.toNat (COutPoint.mk.inj heq).2
    rw [UInt32.toNat_ofNat', UInt32.toNat_ofNat', Nat.mod_eq_of_lt (by omega)] at hindex
    omega

theorem addCoinsFrom_lookup (hn : n + vout.length ≤ 2 ^ 32)
    (hok : addCoinsFrom fetched txid fCoinbase nHeight n vout view = .ok view')
    (outpoint : COutPoint) :
    view'.lookup outpoint =
      (createdCoin txid fCoinbase nHeight n vout outpoint).or (view.lookup outpoint) := by
  induction vout generalizing n view with
  | nil =>
    cases hok
    rfl
  | cons txout vout ih =>
    rw [List.length_cons] at hn
    obtain ⟨view₁, hadd, hrest⟩ := bind_eq_ok_iff.mp hok
    have hnext := ih (by omega) hrest
    by_cases heq : outpoint = ⟨txid, UInt32.ofNat n⟩
    · subst heq
      rw [createdCoin_before (Nat.lt_succ_self n) (by omega)] at hnext
      rw [hnext, createdCoin, if_pos rfl]
      rcases addCoin_ok hadd with ⟨hunspendable, rfl⟩ | ⟨hspendable, rfl, -⟩
      · simp [hunspendable]
      · simp [hspendable]
    · rw [hnext, createdCoin, if_neg heq]
      rcases addCoin_ok hadd with ⟨-, rfl⟩ | ⟨-, rfl, -⟩
      · rfl
      · rw [AList.lookup_insert_ne heq]

theorem addCoinsFrom_fresh (hn : n + vout.length ≤ 2 ^ 32) (hfetched : ∀ k, fetched ⟨txid, k⟩ = true)
    (hok : addCoinsFrom fetched txid false nHeight n vout view = .ok view')
    (hcoin : createdCoin txid false nHeight n vout outpoint = some coin) :
    view.lookup outpoint = none := by
  induction vout generalizing n view with
  | nil => simp [createdCoin] at hcoin
  | cons txout vout ih =>
    rw [List.length_cons] at hn
    obtain ⟨view₁, hadd, hrest⟩ := bind_eq_ok_iff.mp hok
    by_cases heq : outpoint = ⟨txid, UInt32.ofNat n⟩
    · subst heq
      rw [createdCoin] at hcoin
      rcases addCoin_ok hadd with ⟨hunspendable, rfl⟩ | ⟨-, -, hfresh⟩
      · simp [hunspendable] at hcoin
      · exact hfresh rfl (hfetched _)
    · rw [createdCoin, if_neg heq] at hcoin
      have hnone := ih (by omega) hrest hcoin
      rcases addCoin_ok hadd with ⟨-, rfl⟩ | ⟨-, rfl, -⟩
      · exact hnone
      · rwa [AList.lookup_insert_ne heq] at hnone
end

section
variable {env : ConnectEnv} {pprev pindex : CBlockIndex} {call : ConnectCall} {tx : CTransaction}
  {st st' : ConnectState} {view : CoinsView}

theorem connectTransaction_ok (hok : connectTransaction env pprev pindex call tx st = .ok st') :
    updateCoins call.fetched env.hashes tx pindex.nHeight st.view = .ok st'.view ∧
      checkScripts env pindex call tx st.view = .ok () ∧
      (tx.isCoinBase = false → ∃ txfee, st.view.checkTxInputs tx pindex.nHeight = .ok txfee) := by
  have hsplit : ∃ nFees, (if tx.isCoinBase then pure st.nFees
      else collectFees env pprev pindex tx st) = Except.ok nFees ∧
      (do
        let nSigOpsCost ← countSigOps tx st
        checkScripts env pindex call tx st.view
        let view ← updateCoins call.fetched env.hashes tx pindex.nHeight st.view
        pure (⟨view, nFees, nSigOpsCost⟩ : ConnectState)) = Except.ok st' := by
    rw [connectTransaction] at hok
    split at hok
    case isTrue hcoinbase => exact ⟨st.nFees, by simp [hcoinbase], hok⟩
    case isFalse hcoinbase =>
      obtain ⟨nFees, hfees, hok⟩ := bind_eq_ok_iff.mp hok
      exact ⟨nFees, by simp [hcoinbase, hfees], hok⟩
  obtain ⟨nFees, hfees, hok⟩ := hsplit
  obtain ⟨cost, -, hok⟩ := bind_eq_ok_iff.mp hok
  obtain ⟨hscripts, hok⟩ := unit_bind_eq_ok_iff.mp hok
  obtain ⟨view, hview, hok⟩ := bind_eq_ok_iff.mp hok
  cases hok
  refine ⟨hview, hscripts, fun hcoinbase => ?_⟩
  rw [hcoinbase] at hfees
  obtain ⟨txfee, htxfee, -⟩ := bind_eq_ok_iff.mp hfees
  exact ⟨txfee, htxfee⟩

theorem sumInputs_moneyRange {vin : List CTxIn} {nSpendHeight : Nat} {nValueIn sum : Int}
    (hok : view.sumInputs nSpendHeight nValueIn vin = .ok sum) :
    ∀ txin ∈ vin, ∀ coin, view.lookup txin.prevout = some coin → moneyRange coin.out.nValue = true := by
  induction vin generalizing nValueIn with
  | nil => simp
  | cons txin vin ih =>
    rw [CoinsView.sumInputs] at hok
    cases hcoin : view.lookup txin.prevout with
    | none => simp [hcoin] at hok
    | some coin =>
      simp only [hcoin, rejectBlock, throw_eq_error, ite_error_eq_ok_iff] at hok
      obtain ⟨sum', -, hok⟩ := bind_eq_ok_iff.mp hok.2
      rw [ite_error_eq_ok_iff] at hok
      intro other hmem coin' hcoin'
      rcases List.mem_cons.mp hmem with rfl | hmem
      · rw [hcoin] at hcoin'
        cases hcoin'
        have hrange := hok.1
        simp only [Bool.or_eq_true, not_or, Bool.not_eq_true, Bool.not_eq_false'] at hrange
        exact hrange.1
      · exact ih hok.2 other hmem coin' hcoin'

theorem checkTxInputs_moneyRange {nSpendHeight : Nat} {txfee : Int}
    (hok : view.checkTxInputs tx nSpendHeight = .ok txfee) :
    ∀ txin ∈ tx.vin, ∀ coin, view.lookup txin.prevout = some coin → moneyRange coin.out.nValue = true := by
  simp only [CoinsView.checkTxInputs, rejectBlock, throw_eq_error, ite_error_eq_ok_iff] at hok
  obtain ⟨nValueIn, hsum, -⟩ := bind_eq_ok_iff.mp hok.2
  exact sumInputs_moneyRange hsum

theorem checkInputScripts_quantum {flags : ScriptVerifyFlags}
    (hok : checkInputScripts env flags view tx = .ok ()) :
    ∀ txin ∈ tx.vin, ∀ coin, view.lookup txin.prevout = some coin →
      isQuantumOutput coin.out.scriptPubKey = true := by
  obtain ⟨coins, hcoins, hok⟩ := bind_eq_ok_iff.mp hok
  have hspent := forall₂_of_mapM hcoins
  intro txin hin coin hcoin
  obtain ⟨i, hi, rfl⟩ := List.getElem_of_mem hin
  have hlength := hspent.length_eq
  have hi' : i < coins.length := by omega
  have hget := hspent.get hi hi'
  have hcoin' : coins[i] = coin := by
    simp only [List.get_eq_getElem, hcoin] at hget
    exact (Except.ok.inj hget).symm
  have hmem : (⟨i, hi⟩, coin.out) ∈ (List.finRange tx.vin.length).zip (coins.map Coin.out) := by
    refine List.mem_iff_getElem.mpr ⟨i, by simpa using ⟨hi, hi'⟩, ?_⟩
    simp [hcoin']
  have hscript := forall_of_forM hok _ hmem
  by_contra hnot
  split at hscript
  case h_1 u heq => exact verifyScript_other _ _ _ _ _ (fun hboth => hnot hboth.1) heq
  case h_2 => simp [rejectBlock] at hscript
  case h_3 => simp at hscript
end

end Byze
