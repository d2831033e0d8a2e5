import Byze.QuantumKeys
import Byze.UndoData

/-! Disconnecting a block: its transactions are undone in reverse order, and the
coins are those from before the block was connected. -/

namespace Byze
open ExceptEq MapTotal HeaderChain

inductive DisconnectResult where
  | ok | unclean | failed
  deriving DecidableEq

structure UndoState where
  result : DisconnectResult
  view : CoinsView

structure CoinsTip where
  view : CoinsView
  hashBlock : Uint256
  deriving DecidableEq

def minTransactionOutputWeight : Nat := witnessScaleFactor * (CTxOut.serialize ⟨-1, []⟩).length

def maxOutputsPerBlock : Nat := maxBlockWeight / minTransactionOutputWeight

def accessByTxid (view : CoinsView) (txid : Uint256) : Option Coin :=
  (List.range maxOutputsPerBlock).findSome? fun n => view.lookup ⟨txid, UInt32.ofNat n⟩

/-- The coin with the height and the coinbase flag that old undo data lacks. -/
def completeUndo (undo : Coin) (view : CoinsView) (out : COutPoint) : Option Coin :=
  if undo.nHeight = 0 then
    (accessByTxid view out.hash).map fun alternate =>
      { undo with nHeight := alternate.nHeight, fCoinBase := alternate.fCoinBase }
  else some undo

section
variable (fetched : COutPoint → Bool)

def applyTxInUndo (undo : Coin) (view : CoinsView) (out : COutPoint) :
    Connect (DisconnectResult × CoinsView) :=
  let fClean := !view.haveCoin out
  match completeUndo undo view out with
  | none => pure (.failed, view)
  | some undo => do
    let view ← addCoin fetched out undo (!fClean) view
    pure (if fClean then .ok else .unclean, view)

def restoreInput (st : UndoState) (input : COutPoint × Coin) : Connect UndoState :=
  if st.result = .failed then pure st
  else do
    let restored ← applyTxInUndo fetched input.2 st.view input.1
    pure ⟨if restored.1 = .ok then st.result else restored.1, restored.2⟩

def outputMatches (view : CoinsView) (out : COutPoint) (txout : CTxOut) (nHeight : Nat)
    (fCoinbase : Bool) : Bool :=
  match view.lookup out with
  | none => false
  | some coin => txout = coin.out && nHeight = coin.nHeight && fCoinbase = coin.fCoinBase

def spendOutputs (txid : Uint256) (fCoinbase : Bool) (nHeight : Nat) (isBip30Exception : Bool) :
    Nat → List CTxOut → UndoState → UndoState
  | _, [], st => st
  | n, txout :: vout, st =>
    let out : COutPoint := ⟨txid, UInt32.ofNat n⟩
    if isUnspendable txout.scriptPubKey then
      spendOutputs txid fCoinbase nHeight isBip30Exception (n + 1) vout st
    else
      spendOutputs txid fCoinbase nHeight isBip30Exception (n + 1) vout
        ⟨if outputMatches st.view out txout nHeight fCoinbase || isBip30Exception then st.result
          else .unclean, st.view.erase out⟩

variable (h : Hashes) (nHeight : Nat) (fEnforceBIP30 : Bool)

def disconnectTransaction (st : UndoState) (entry : CTransaction × Option CTxUndo) :
    Connect UndoState :=
  if st.result = .failed then pure st
  else
    let tx := entry.1
    let st := spendOutputs (tx.getHash h) tx.isCoinBase nHeight (tx.isCoinBase && !fEnforceBIP30) 0 tx.vout st
    match entry.2 with
    | none => pure st
    | some txundo =>
      if txundo.vprevout.length ≠ tx.vin.length then pure { st with result := .failed }
      else ((tx.vin.map CTxIn.prevout).zip txundo.vprevout).reverse.foldlM (restoreInput fetched) st
end

def isBIP30Unspendable (hash : Uint256) (nHeight : Nat) : Bool :=
  (nHeight = 91722 && hash =
    Uint256.ofNat 0x00000000000271a2dc26e7667f8419f2e15416dc6955e5a6c6cdf3f2574dd08e) ||
  (nHeight = 91812 && hash = Uint256.ofNat 0x00000000000af0aed4792b1acee3d966af36cf5def14935db8de83d6f9306f2f)

section
variable (env : ConnectEnv)

def HeaderChain.tipHash : HeaderChain → Uint256
  | [] => env.hashGenesisBlock
  | header :: _ => env.getHash header

def disconnectBlock (chain : HeaderChain) (block : CBlock) (fetched : COutPoint → Bool)
    (readBlockUndo : Option CBlockUndo) (tip : CoinsTip) : Connect (DisconnectResult × CoinsTip) :=
  match readBlockUndo with
  | none => pure (.failed, tip)
  | some blockUndo =>
    if blockUndo.vtxundo.length + 1 ≠ block.vtx.length then pure (.failed, tip)
    else do
      let nHeight := chain.length + 1
      let fEnforceBIP30 := !isBIP30Unspendable (env.getHash block.toCBlockHeader) nHeight
      let entries := block.vtx.zip (none :: blockUndo.vtxundo.map some)
      let st ← entries.reverse.foldlM
        (disconnectTransaction fetched env.hashes nHeight fEnforceBIP30) ⟨.ok, tip.view⟩
      if st.result = .failed then pure (.failed, { tip with view := st.view })
      else pure (st.result, ⟨st.view, tipHash env chain⟩)
end

/-- The step takes coins that are those of `view'` to those of `view`. -/
def Restores (step : UndoState → Connect UndoState) (view view' : CoinsView) : Prop :=
  ∀ w, Agree w view' → ∃ w', step ⟨.ok, w⟩ = .ok ⟨.ok, w'⟩ ∧ Agree w' view

variable {view view₁ view' : CoinsView}

theorem Restores.bind {step step' : UndoState → Connect UndoState}
    (hstep : Restores step view view₁) (hstep' : Restores step' view₁ view') :
    Restores (fun st => step' st >>= step) view view' := by
  intro w hw
  obtain ⟨w₁, hw₁, hagree⟩ := hstep' w hw
  obtain ⟨w₂, hw₂, hagree'⟩ := hstep w₁ hagree
  refine ⟨w₂, ?_, hagree'⟩
  simp [hw₁, hw₂]

theorem restores_foldlM_cons {α : Type} {step : UndoState → α → Connect UndoState} {a : α}
    {l : List α} (ha : Restores (step · a) view view₁)
    (hl : Restores (l.reverse.foldlM step) view₁ view') :
    Restores ((a :: l).reverse.foldlM step) view view' := by
  have hfold : ∀ st, (a :: l).reverse.foldlM step st = l.reverse.foldlM step st >>= (step · a) := by
    intro st
    rw [List.reverse_cons, List.foldlM_append]
    refine congrArg _ (funext fun st' => ?_)
    simp only [List.foldlM_cons, List.foldlM_nil, bind_pure]
  rw [show (a :: l).reverse.foldlM step = fun st => l.reverse.foldlM step st >>= (step · a) from
    funext hfold]
  exact ha.bind hl

structure Coin.Restorable (coin : Coin) : Prop where
  height : coin.nHeight ≠ 0
  unspent : coin.out.nValue ≠ -1
  spendable : isUnspendable coin.out.scriptPubKey = false

section
variable {fetched : COutPoint → Bool}

theorem restores_restoreInput {out : COutPoint} {coin : Coin} (hcoin : view.lookup out = some coin)
    (hrestorable : coin.Restorable) :
    Restores (restoreInput fetched · (out, coin)) view (view.erase out) := by
  intro w hw
  refine ⟨w.insert out coin, ?_, hw.insert_erased hcoin⟩
  have hnone : w.lookup out = none := by simp [hw out]
  simp [restoreInput, applyTxInUndo, completeUndo, hrestorable.height, CoinsView.haveCoin, hnone,
    addCoin, hrestorable.unspent, hrestorable.spendable]

theorem restores_inputs {vin : List CTxIn} {vprevout : List Coin}
    (hspent : spendCoinsUndo vin view = .ok (view', vprevout))
    (hrestorable : ∀ coin ∈ vprevout, coin.Restorable) :
    Restores (((vin.map CTxIn.prevout).zip vprevout).reverse.foldlM (restoreInput fetched))
      view view' := by
  induction vin generalizing view vprevout with
  | nil =>
    cases hspent
    exact fun w hw => ⟨w, rfl, hw⟩
  | cons txin vin ih =>
    obtain ⟨coin, rest, hcoin, rfl, hrest⟩ := spendCoinsUndo_cons hspent
    exact restores_foldlM_cons (restores_restoreInput hcoin (hrestorable coin List.mem_cons_self))
      (ih hrest fun other hmem => hrestorable other (List.mem_cons_of_mem _ hmem))

theorem spendOutputs_lookup {txid : Uint256} {fCoinbase isBip30Exception : Bool} {nHeight n : Nat}
    {vout : List CTxOut} {w : CoinsView} (hn : n + vout.length ≤ 2 ^ 32)
    (hthere : ∀ out coin, createdCoin txid fCoinbase nHeight n vout out = some coin →
      w.lookup out = some coin) :
    ∃ w', spendOutputs txid fCoinbase nHeight isBip30Exception n vout ⟨.ok, w⟩ = ⟨.ok, w'⟩ ∧
      ∀ out, w'.lookup out = if (createdCoin txid fCoinbase nHeight n vout out).isSome then none
        else w.lookup out := by
  induction vout generalizing n w with
  | nil => exact ⟨w, rfl, fun out => by simp [createdCoin]⟩
  | cons txout vout ih =>
    rw [List.length_cons] at hn
    have hbefore := @createdCoin_before txid fCoinbase nHeight (n + 1) vout n (Nat.lt_succ_self n) (by omega)
    cases hunspendable : isUnspendable txout.scriptPubKey with
    | true =>
      have hsame : ∀ out, createdCoin txid fCoinbase nHeight n (txout :: vout) out =
          createdCoin txid fCoinbase nHeight (n + 1) vout out := by
        intro out
        rw [createdCoin]
        split
        case isTrue heq => simp only [heq, hbefore]
        case isFalse => rfl
      obtain ⟨w', hw', hlookup⟩ := ih (w := w) (by omega) fun out coin hcoin =>
        hthere out coin ((hsame out).trans hcoin)
      refine ⟨w', by simp [spendOutputs, hunspendable, hw'], fun out => ?_⟩
      rw [hsame, hlookup]
    | false =>
      have hhead : createdCoin txid fCoinbase nHeight n (txout :: vout) ⟨txid, UInt32.ofNat n⟩ =
          some ⟨txout, fCoinbase, nHeight⟩ := by
        simp [createdCoin, hunspendable]
      have hrest : ∀ out, out ≠ ⟨txid, UInt32.ofNat n⟩ →
          createdCoin txid fCoinbase nHeight n (txout :: vout) out =
            createdCoin txid fCoinbase nHeight (n + 1) vout out := by
        intro out hne
        simp [createdCoin, hne]
      have hmatches : outputMatches w ⟨txid, UInt32.ofNat n⟩ txout nHeight fCoinbase = true := by
        simp [outputMatches, hthere _ _ hhead]
      obtain ⟨w', hw', hlookup⟩ := ih (n := n + 1) (w := w.erase ⟨txid, UInt32.ofNat n⟩) (by omega) <| by
        intro out coin hcoin
        have hne : out ≠ ⟨txid, UInt32.ofNat n⟩ := by
          rintro rfl
          rw [hbefore] at hcoin
          cases hcoin
        rw [AList.lookup_erase_ne hne]
        exact hthere out coin ((hrest out hne).trans hcoin)
      refine ⟨w', ?_, fun out => ?_⟩
      · simp only [spendOutputs, hunspendable, hmatches]
        exact hw'
      · rw [hlookup]
        by_cases heq : out = ⟨txid, UInt32.ofNat n⟩
        · rw [heq, hhead, hbefore, AList.lookup_erase]
          rfl
        · rw [hrest out heq, AList.lookup_erase_ne heq]

theorem restores_outputs {h : Hashes} {tx : CTransaction} {nHeight : Nat} {isBip30Exception : Bool}
    (hn : tx.vout.length ≤ 2 ^ 32) (hadd : addCoins fetched h tx nHeight view = .ok view')
    (hfresh : ∀ out coin, createdCoin (tx.getHash h) tx.isCoinBase nHeight 0 tx.vout out = some coin →
      view.lookup out = none) :
    Restores (fun st => pure (spendOutputs (tx.getHash h) tx.isCoinBase nHeight isBip30Exception 0
      tx.vout st)) view view' := by
  intro w hw
  have hcreated := addCoinsFrom_lookup (by omega) hadd
  obtain ⟨w', hw', hlookup⟩ := @spendOutputs_lookup (tx.getHash h) tx.isCoinBase isBip30Exception
    nHeight 0 tx.vout w (by omega) fun out coin hcoin => by rw [hw out, hcreated, hcoin]; rfl
  refine ⟨w', by simp [hw', pure_eq_ok], fun out => ?_⟩
  rw [hlookup, hw out, hcreated]
  cases hcoin : createdCoin (tx.getHash h) tx.isCoinBase nHeight 0 tx.vout out with
  | none => rfl
  | some coin => exact (hfresh out coin hcoin).symm
end

theorem isUnspendable_of_isQuantumOutput {script : CScript} (h : isQuantumOutput script = true) :
    isUnspendable script = false := by
  obtain ⟨program, hprogram, rfl⟩ := (isQuantumOutput_iff _).mp h
  simp [isUnspendable, op1, hprogram, maxScriptSize]

/-- A coin that is restored once a block has spent it, where the scripts of
the block are checked or not. -/
def Coin.Undoable (fScriptChecks : Bool) (coin : Coin) : Prop :=
  coin.nHeight ≠ 0 ∧ (fScriptChecks = false → isUnspendable coin.out.scriptPubKey = false)

/-- A cache notices the coins of a block that it has looked up or created. -/
def ConnectCall.CachesOwn (h : Hashes) (call : ConnectCall) : Prop :=
  ∀ tx ∈ call.block.vtx, ∀ n, call.fetched ⟨tx.getHash h, n⟩ = true

section
variable {env : ConnectEnv} {pprev pindex : CBlockIndex} {call : ConnectCall} {tx : CTransaction}
  {st st' : ConnectState}

theorem vout_length_le (hchecked : checkTransaction tx = .ok ()) : tx.vout.length ≤ 2 ^ 32 := by
  simp only [checkTransaction, throw_eq_error, error_bind, ite_error_eq_ok_iff] at hchecked
  have hsize := hchecked.2.2.1
  have hsum : tx.vout.length ≤ (tx.vout.map fun txout => txout.serialize.length).sum := by
    have hcard := List.card_nsmul_le_sum (tx.vout.map fun txout => txout.serialize.length) 1 <| by
      intro n hn
      obtain ⟨txout, -, rfl⟩ := List.mem_map.mp hn
      rw [CTxOut.serialize_length]
      omega
    simpa using hcard
  rw [CTransaction.serialize_false_length, witnessScaleFactor, maxBlockWeight] at hsize
  omega

variable (hview : Holds (Coin.Undoable call.fScriptChecks) st.view)
  (hok : connectTransaction env pprev pindex call tx st = .ok st')

include hview hok in
theorem restorable_of_connectTransaction (hcoinbase : tx.isCoinBase = false) :
    ∀ txin ∈ tx.vin, ∀ coin, st.view.lookup txin.prevout = some coin → coin.Restorable := by
  obtain ⟨-, hscripts, hinputs⟩ := connectTransaction_ok hok
  obtain ⟨txfee, htxfee⟩ := hinputs hcoinbase
  intro txin hin coin hcoin
  have hundoable := hview _ _ hcoin
  have hrange := moneyRange_iff.mp (checkTxInputs_moneyRange htxfee txin hin coin hcoin)
  refine ⟨hundoable.1, by omega, ?_⟩
  cases hchecks : call.fScriptChecks with
  | false => exact hundoable.2 hchecks
  | true =>
    rw [checkScripts, hcoinbase, hchecks] at hscripts
    exact isUnspendable_of_isQuantumOutput (checkInputScripts_quantum hscripts txin hin coin hcoin)

theorem holds_of_addCoins {fetched : COutPoint → Bool} {h : Hashes} {nHeight : Nat}
    {view view' : CoinsView} {fScriptChecks : Bool} (hn : tx.vout.length ≤ 2 ^ 32)
    (hheight : nHeight ≠ 0) (hview : Holds (Coin.Undoable fScriptChecks) view)
    (hadd : addCoins fetched h tx nHeight view = .ok view') :
    Holds (Coin.Undoable fScriptChecks) view' := by
  intro out coin hcoin
  rw [addCoinsFrom_lookup (by omega) hadd] at hcoin
  cases hcreated : createdCoin (tx.getHash h) tx.isCoinBase nHeight 0 tx.vout out with
  | none =>
    rw [hcreated] at hcoin
    exact hview out coin hcoin
  | some created =>
    rw [hcreated] at hcoin
    cases hcoin
    obtain ⟨-, -, -, hspendable, hcoinHeight⟩ := createdCoin_some hcreated
    exact ⟨by rwa [hcoinHeight], fun _ => hspendable⟩

include hview hok in
theorem restores_transaction (hcoinbase : tx.isCoinBase = false) (hchecked : checkTransaction tx = .ok ())
    (hheight : pindex.nHeight ≠ 0) (hfetched : ∀ n, call.fetched ⟨tx.getHash env.hashes, n⟩ = true) :
    Holds (Coin.Undoable call.fScriptChecks) st'.view ∧
      ∃ txundo, updateCoinsUndo call.fetched env.hashes tx pindex.nHeight st.view = .ok (st'.view, txundo) ∧
        ∀ fetched fEnforceBIP30, Restores
          (disconnectTransaction fetched env.hashes pindex.nHeight fEnforceBIP30 · (tx, some txundo))
          st.view st'.view := by
  have hn := vout_length_le hchecked
  obtain ⟨hupdate, -, -⟩ := connectTransaction_ok hok
  rw [updateCoins, hcoinbase] at hupdate
  obtain ⟨view, hspend, hadd⟩ := bind_eq_ok_iff.mp hupdate
  obtain ⟨vprevout, hspent⟩ := spendCoinsUndo_of_spendCoins hspend
  refine ⟨holds_of_addCoins hn hheight (holds_of_spendCoinsUndo hview hspent) hadd,
    ⟨vprevout⟩, ?_, fun fetched fEnforceBIP30 => ?_⟩
  · simp [updateCoinsUndo, hcoinbase, hspent, hadd]
  · have hfresh : ∀ out coin, createdCoin (tx.getHash env.hashes) tx.isCoinBase pindex.nHeight 0
        tx.vout out = some coin → view.lookup out = none := by
      have hadd' : addCoinsFrom call.fetched (tx.getHash env.hashes) false pindex.nHeight 0 tx.vout
          view = .ok st'.view := by simpa only [addCoins, hcoinbase] using hadd
      rw [hcoinbase]
      exact fun out coin hcoin => addCoinsFrom_fresh (by omega) hfetched hadd' hcoin
    have hinputs : Restores (((tx.vin.map CTxIn.prevout).zip vprevout).reverse.foldlM
        (restoreInput fetched)) st.view view := by
      refine restores_inputs hspent fun coin hmem => ?_
      obtain ⟨txin, hin, hcoin⟩ := spendCoinsUndo_mem hspent coin hmem
      exact restorable_of_connectTransaction hview hok hcoinbase txin hin coin hcoin
    have houtputs := @restores_outputs view st'.view call.fetched env.hashes tx pindex.nHeight
      (tx.isCoinBase && !fEnforceBIP30) hn hadd hfresh
    intro w hw
    obtain ⟨w', hw', hagree⟩ := (hinputs.bind houtputs) w hw
    refine ⟨w', ?_, hagree⟩
    simpa [disconnectTransaction, spendCoinsUndo_length hspent] using hw'

include hview hok in
theorem restores_coinbase (hcoinbase : tx.isCoinBase = true) (hchecked : checkTransaction tx = .ok ())
    (hheight : pindex.nHeight ≠ 0) (hbip30 : overwritesCoin env st.view tx = false) :
    Holds (Coin.Undoable call.fScriptChecks) st'.view ∧
      ∃ txundo, updateCoinsUndo call.fetched env.hashes tx pindex.nHeight st.view = .ok (st'.view, txundo) ∧
        ∀ fetched fEnforceBIP30, Restores
          (disconnectTransaction fetched env.hashes pindex.nHeight fEnforceBIP30 · (tx, none))
          st.view st'.view := by
  have hn := vout_length_le hchecked
  obtain ⟨hupdate, -, -⟩ := connectTransaction_ok hok
  have hadd : addCoins call.fetched env.hashes tx pindex.nHeight st.view = .ok st'.view := by
    simpa [updateCoins, hcoinbase] using hupdate
  refine ⟨holds_of_addCoins hn hheight hview hadd, ⟨[]⟩, ?_, fun fetched fEnforceBIP30 => ?_⟩
  · simp [updateCoinsUndo, hcoinbase, hadd]
  · have hfresh : ∀ out coin, createdCoin (tx.getHash env.hashes) tx.isCoinBase pindex.nHeight 0
        tx.vout out = some coin → st.view.lookup out = none := by
      intro out coin hcoin
      obtain ⟨i, hi, rfl, -⟩ := createdCoin_some hcoin
      have hnone := List.any_eq_false.mp hbip30 i (List.mem_range.mpr hi)
      rw [Nat.zero_add]
      simpa [CoinsView.haveCoin] using hnone
    have houtputs := @restores_outputs st.view st'.view call.fetched env.hashes tx pindex.nHeight
      (tx.isCoinBase && !fEnforceBIP30) hn hadd hfresh
    intro w hw
    obtain ⟨w', hw', hagree⟩ := houtputs w hw
    refine ⟨w', ?_, hagree⟩
    simpa [disconnectTransaction] using hw'

include hview in
theorem restores_transactions {vtx : List CTransaction}
    (hok : connectTransactions env pprev pindex call vtx st = .ok st')
    (hvtx : ∀ tx ∈ vtx, tx.isCoinBase = false ∧ checkTransaction tx = .ok () ∧
      ∀ n, call.fetched ⟨tx.getHash env.hashes, n⟩ = true) (hheight : pindex.nHeight ≠ 0) :
    ∃ vtxundo, updateAllCoins call.fetched env.hashes pindex.nHeight vtx st.view =
        .ok (st'.view, vtxundo) ∧ vtxundo.length = vtx.length ∧
      ∀ fetched fEnforceBIP30, Restores ((vtx.zip (vtxundo.map some)).reverse.foldlM
        (disconnectTransaction fetched env.hashes pindex.nHeight fEnforceBIP30))
        st.view st'.view := by
  induction vtx generalizing st with
  | nil =>
    cases hok
    exact ⟨[], rfl, rfl, fun _ _ w hw => ⟨w, rfl, hw⟩⟩
  | cons tx vtx ih =>
    obtain ⟨st₁, htx, hok⟩ := bind_eq_ok_iff.mp hok
    obtain ⟨⟨hcoinbase, hchecked, hfetched⟩, hvtx⟩ := List.forall_mem_cons.mp hvtx
    obtain ⟨hview₁, txundo, hundo, hrestores⟩ :=
      restores_transaction hview htx hcoinbase hchecked hheight hfetched
    obtain ⟨vtxundo, hundos, hlength, hrest⟩ := ih hview₁ hok hvtx
    refine ⟨txundo :: vtxundo, by simp [updateAllCoins, hundo, hundos],
      by simp [hlength], fun fetched fEnforceBIP30 => ?_⟩
    exact restores_foldlM_cons (hrestores fetched fEnforceBIP30) (hrest fetched fEnforceBIP30)
end

section
variable {env : ConnectEnv} {chain : HeaderChain} {call : ConnectCall}

theorem connectContents_ok (hok : connectContents env chain view call = .ok view') :
    ∃ st, connectTransactions env (index env chain)
        (index env (call.block.toCBlockHeader :: chain)) call call.block.vtx
        ⟨view, 0, 0⟩ = .ok st ∧ st.view = view' := by
  simp only [connectContents, rejectBlock, throw_eq_error, ite_error_eq_ok_iff] at hok
  obtain ⟨st, hst, hok⟩ := bind_eq_ok_iff.mp hok.2
  refine ⟨st, hst, ?_⟩
  obtain ⟨blockReward, -, hok⟩ := bind_eq_ok_iff.mp hok
  cases hvtx : call.block.vtx with
  | nil => simp [hvtx] at hok
  | cons coinbase rest =>
    rw [hvtx] at hok
    obtain ⟨valueOut, -, hok⟩ := bind_eq_ok_iff.mp hok
    rw [ite_error_eq_ok_iff, ite_error_eq_ok_iff] at hok
    cases hok.2.2
    rfl

/-- Disconnecting a block takes back what connecting it did to the coins. -/
theorem disconnectBlock_connectBlock (hconnect : connectBlock env chain view call = .ok view')
    (hgenesis : env.getHash call.block.toCBlockHeader ≠ env.hashGenesisBlock)
    (hbip30 : ∀ tx ∈ call.block.vtx, overwritesCoin env view tx = false)
    (hheights : Holds (fun coin => coin.nHeight ≠ 0) view)
    (hspendable : call.fScriptChecks = false →
      Holds (fun coin => isUnspendable coin.out.scriptPubKey = false) view)
    (hcaches : call.CachesOwn env.hashes) (fetched : COutPoint → Bool) :
    ∃ blockUndo restored, connectUndo call.fetched env.hashes (chain.length + 1) call.block.vtx view =
        .ok (view', blockUndo) ∧
      disconnectBlock env chain call.block fetched (some blockUndo)
        ⟨view', env.getHash call.block.toCBlockHeader⟩ =
        .ok (.ok, ⟨restored, tipHash env chain⟩) ∧
      Agree restored view := by
  cases hcheck : checkBlock env.toNodeEnv call.block true true with
  | error r =>
    simp only [connectBlock, hcheck] at hconnect
    split at hconnect <;> cases hconnect
  | ok u =>
    simp only [connectBlock, hcheck, if_neg hgenesis] at hconnect
    obtain ⟨coinbase, rest, hvtx, hcoinbase, hrest, hchecked⟩ :=
      checkBlockTransactions_cases (checkBlock_ok_iff.mp hcheck).1.transactionsOk
    obtain ⟨st, hok, rfl⟩ := connectContents_ok hconnect
    have hindex : (index env (call.block.toCBlockHeader :: chain)).nHeight =
        chain.length + 1 := index_nHeight _
    rw [hvtx] at hok hchecked hbip30
    obtain ⟨st₁, hfirst, hok⟩ := bind_eq_ok_iff.mp hok
    have hview : Holds (Coin.Undoable call.fScriptChecks) view := fun out coin hcoin =>
      ⟨hheights out coin hcoin, fun hchecks => hspendable hchecks out coin hcoin⟩
    obtain ⟨hview₁, txundo, hundo, hrestores⟩ := restores_coinbase hview hfirst hcoinbase
      (hchecked coinbase List.mem_cons_self) (by omega) (hbip30 coinbase List.mem_cons_self)
    rw [ConnectCall.CachesOwn, hvtx] at hcaches
    obtain ⟨vtxundo, hundos, hlength, hrestores'⟩ := restores_transactions hview₁ hok (fun tx hmem =>
      ⟨hrest tx hmem, hchecked tx (List.mem_cons_of_mem _ hmem), hcaches tx (List.mem_cons_of_mem _ hmem)⟩) (by omega)
    rw [hindex] at hundo hundos hrestores hrestores'
    have hall := restores_foldlM_cons (hrestores fetched _) (hrestores' fetched
        (!isBIP30Unspendable (env.getHash call.block.toCBlockHeader) (chain.length + 1)))
    obtain ⟨restored, hrestored, hagree⟩ := hall st.view fun out => rfl
    refine ⟨⟨vtxundo⟩, restored, ?_, ?_, hagree⟩
    · simp [connectUndo, hvtx, updateAllCoins, hundo, hundos]
    · simp only [disconnectBlock, hvtx, hlength, List.length_cons, ne_eq, List.zip_cons_cons, hrestored]
      rfl
end

def undoEnv : ConnectEnv := { sampleConnectEnv with hashes := byteSumHashes }

def undoSpend : CTransaction :=
  ⟨1, [⟨⟨Uint256.fill 2, 0⟩, [], 0xffffffff, []⟩], [⟨1000, [0x51]⟩], 0⟩

def undoCall : ConnectCall where
  block :=
    ⟨⟨4, Uint256.fill 1, (computeMerkleRoot byteSumHashes
      ([sampleCoinbase, undoSpend].map (CTransaction.getHash byteSumHashes))).1,
      1777343705, 0x207fffff, 0⟩, [sampleCoinbase, undoSpend], .null⟩
  fScriptChecks := false
  fetched _ := true
  undoWritten := true

def undoCoins (opcode : UInt8) : CoinsView :=
  AList.singleton ⟨Uint256.fill 2, 0⟩ ⟨⟨1000, [opcode]⟩, false, 1⟩

def undoCoinsAfter : CoinsView :=
  (AList.singleton ⟨sampleCoinbase.getHash byteSumHashes, 0⟩ ⟨⟨50 * coin, [0x51]⟩, true, 1⟩).insert
    ⟨undoSpend.getHash byteSumHashes, 0⟩ ⟨⟨1000, [0x51]⟩, false, 1⟩

theorem undoCoins_lookup {opcode : UInt8} {out : COutPoint} {coin : Coin}
    (hcoin : (undoCoins opcode).lookup out = some coin) : coin = ⟨⟨1000, [opcode]⟩, false, 1⟩ := by
  by_cases hout : out = ⟨Uint256.fill 2, 0⟩
  · subst hout
    exact (Option.some.inj hcoin).symm
  · rw [undoCoins, ← AList.insert_empty, AList.lookup_insert_ne hout] at hcoin
    cases hcoin

theorem disconnectBlock_connectBlock_sample : ∃ blockUndo restored,
    connectUndo undoCall.fetched byteSumHashes 1 undoCall.block.vtx (undoCoins 0x51) =
      .ok (undoCoinsAfter, blockUndo) ∧
    disconnectBlock undoEnv [] undoCall.block (fun _ => false) (some blockUndo)
      ⟨undoCoinsAfter, Uint256.zero⟩ = .ok (.ok, ⟨restored, Uint256.fill 1⟩) ∧
    Agree restored (undoCoins 0x51) := by
  have hconnect : connectBlock undoEnv [] (undoCoins 0x51) undoCall = .ok undoCoinsAfter := by
    decide +kernel
  refine disconnectBlock_connectBlock hconnect (by decide) (by decide +kernel) ?_ ?_ (fun _ _ _ => rfl) _
  · intro out coin hcoin
    simp [undoCoins_lookup hcoin]
  · intro _ out coin hcoin
    rw [undoCoins_lookup hcoin]
    rfl

/-- A coin that can never be spent is not restored once a block whose scripts
are not checked has spent it. -/
theorem disconnectBlock_loses_coin : connectBlock undoEnv [] (undoCoins 0x6a) undoCall = .ok undoCoinsAfter ∧
      (∀ tx ∈ undoCall.block.vtx, overwritesCoin undoEnv (undoCoins 0x6a) tx = false) ∧
      Holds (fun coin => coin.nHeight ≠ 0) (undoCoins 0x6a) ∧ undoCall.CachesOwn byteSumHashes ∧
      ∃ blockUndo restored, connectUndo undoCall.fetched byteSumHashes 1 undoCall.block.vtx (undoCoins 0x6a) =
          .ok (undoCoinsAfter, blockUndo) ∧
        disconnectBlock undoEnv [] undoCall.block (fun _ => false) (some blockUndo)
          ⟨undoCoinsAfter, Uint256.zero⟩ = .ok (.ok, ⟨restored, Uint256.fill 1⟩) ∧
        restored.lookup ⟨Uint256.fill 2, 0⟩ = none ∧
        ((undoCoins 0x6a).lookup ⟨Uint256.fill 2, 0⟩).isSome = true := by
  refine ⟨by decide +kernel, by decide +kernel, ?_, fun _ _ _ => rfl,
    ⟨[⟨[⟨⟨1000, [0x6a]⟩, false, 1⟩]⟩]⟩, ∅, by decide +kernel, by decide +kernel, rfl, rfl⟩
  intro out coin hcoin
  simp [undoCoins_lookup hcoin]

end Byze
