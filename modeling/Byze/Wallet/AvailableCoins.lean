import Byze.Wallet.OwnRoot
import Byze.Wallet.SignSpec

/-! The coins that a wallet offers for spending, and when the ones it calls
solvable can be signed for. -/

namespace Byze
open StateWp

def trucVersion : UInt32 := 3
def defaultMinDepth : Int := 0
def defaultMaxDepth : Int := 9999999

structure CWalletTx where
  hash : Uint256
  version : UInt32
  depth : Int
  immatureCoinBase : Bool
  inMempool : Bool
  trusted : Bool
  replacesTxid : Bool
  replacedByTxid : Bool
  trucChildInMempool : Bool
  ancestors : Nat
  time : Int
  fromMe : Bool

/-- An output of the wallet. `descriptorInputSize` is the size of a signed input
by the descriptor inferred for its script, and `redeemScript` the script that
the solving provider has for its hash. -/
structure WalletTXO where
  wtx : CWalletTx
  n : UInt32
  txout : CTxOut
  lockedCoin : Bool
  spent : Bool
  spentKey : Bool
  descriptorInputSize : Option Nat
  redeemScript : Option CScript

def WalletTXO.outpoint (txo : WalletTXO) : COutPoint := ⟨txo.wtx.hash, txo.n⟩

structure CCoinControl where
  avoidAddressReuse : Bool
  minDepth : Int
  maxDepth : Int
  includeUnsafeInputs : Bool
  selected : List COutPoint
  version : UInt32

structure CoinFilterParams where
  minAmount : Int := 1
  maxAmount : Int := maxMoney
  minSumAmount : Int := maxMoney
  maxCount : Nat := 0
  includeImmatureCoinbase : Bool := false
  skipLocked : Bool := true
  checkVersionTrucness : Bool := true

structure COutput where
  outpoint : COutPoint
  txout : CTxOut
  depth : Int
  inputBytes : Int
  solvable : Bool
  safe : Bool
  time : Int
  fromMe : Bool
  deriving DecidableEq

def getVirtualTransactionSize (weight : Nat) : Nat :=
  (weight + witnessScaleFactor - 1) / witnessScaleFactor

def quantumInputWeight : Nat :=
  (32 + 4 + 4 + 1) * witnessScaleFactor +
    (getSizeOfCompactSize 3 + (getSizeOfCompactSize xmssSignatureSize + xmssSignatureSize) +
      (getSizeOfCompactSize sphincsSignatureSize + sphincsSignatureSize) +
      (getSizeOfCompactSize dualPubkeyBundleSize + dualPubkeyBundleSize))

def calculateMaximumSignedInputSize (txo : WalletTXO) : Int :=
  if (quantumProgramOf txo.txout.scriptPubKey).isSome then getVirtualTransactionSize quantumInputWeight
  else txo.descriptorInputSize.elim (-1) fun size => size

/-- The checks on the transaction of an output: whether they pass, and whether
it is safe to spend from it. There is no result where the coin control is read
without one. -/
def checkWalletTx (coinControl : Option CCoinControl) (params : CoinFilterParams) (wtx : CWalletTx) :
    Option (Bool × Bool) :=
  let failed : Option (Bool × Bool) := some (false, false)
  let safeTx := wtx.trusted && !(wtx.depth = 0 && wtx.replacesTxid) && !(wtx.depth = 0 && wtx.replacedByTxid)
  let finish : Option (Bool × Bool) :=
    if coinControl.elim true (!·.includeUnsafeInputs) && !safeTx then failed
    else if wtx.depth < coinControl.elim defaultMinDepth (·.minDepth) ∨
        wtx.depth > coinControl.elim defaultMaxDepth (·.maxDepth) then failed
    else some (true, safeTx)
  if wtx.immatureCoinBase && !params.includeImmatureCoinbase then failed
  else if wtx.depth < 0 then failed
  else if wtx.depth = 0 && !wtx.inMempool then failed
  else if wtx.depth = 0 && params.checkVersionTrucness then
    coinControl.bind fun control =>
      if control.version = trucVersion then
        if wtx.version ≠ trucVersion then failed
        else if wtx.trucChildInMempool then failed
        else if wtx.ancestors > 1 then failed
        else finish
      else if wtx.version = trucVersion then failed
      else finish
  else finish

structure CoinsLoop where
  txSafeCache : List (Uint256 × Bool × Bool)
  coins : List COutput
  trucCoins : List COutput
  trucValues : List (Uint256 × Int)

def CoinsLoop.totalAmount (loop : CoinsLoop) : Int := (loop.coins.map (·.txout.nValue)).sum

/-- The coins of the unconfirmed version 3 transaction of the highest value. -/
def CoinsLoop.highestValueTruc (loop : CoinsLoop) : List COutput :=
  match loop.trucValues with
  | [] => []
  | first :: rest =>
    let highest := rest.foldl (fun best entry => if best.2 < entry.2 then entry else best) first
    loop.trucCoins.filter fun coin => coin.outpoint.hash = highest.1

def addTrucValue (hash : Uint256) (value : Int) : List (Uint256 × Int) → List (Uint256 × Int)
  | [] => [(hash, value)]
  | entry :: rest =>
    if entry.1 = hash then (hash, entry.2 + value) :: rest else entry :: addTrucValue hash value rest

section
variable {Key : Type} (env : WalletEnv Key)

def quantumCanSign (wallet : CWallet Key) : Bool :=
  wallet.quantumManager.isSome ||
    (!(wallet.isCrypted && wallet.vMasterKey.isEmpty) &&
      (tryGetTaprootDescriptorRootExtKey env wallet).isSome)

def isUnspendableDescriptorTaproot (wallet : CWallet Key) (script : CScript) : Bool :=
  (quantumProgramOf script).isSome && (wallet.getScriptPubKeyMans script).any fun id =>
      (wallet.findSpkm id).any (·.isDescriptorExpansionScript script)

def refreshTXOs (w : World Key) (txos : List WalletTXO) : List WalletTXO :=
  txos.filter fun txo =>
    isMine w txo.txout.scriptPubKey && !isUnspendableDescriptorTaproot w.wallet txo.txout.scriptPubKey

def solvableOutput (w : World Key) (txo : WalletTXO) : Bool :=
  calculateMaximumSignedInputSize txo > -1 &&
    !(isQuantumMine w txo.txout.scriptPubKey && !quantumCanSign env w.wallet)

def skipsOutput (avoidReuse : Bool) (coinControl : Option CCoinControl) (params : CoinFilterParams)
    (solvable : Bool) (txo : WalletTXO) : Bool :=
  let allowUsedAddresses := !avoidReuse || coinControl.any (!·.avoidAddressReuse)
  txo.txout.nValue < params.minAmount || txo.txout.nValue > params.maxAmount ||
    coinControl.any (fun control => decide (txo.outpoint ∈ control.selected)) ||
    (txo.lockedCoin && params.skipLocked) || txo.spent ||
    (!allowUsedAddresses && txo.spentKey) ||
    (isPayToScriptHash txo.txout.scriptPubKey && solvable && txo.redeemScript.isNone)

def CoinsLoop.add (loop : CoinsLoop) (params : CoinFilterParams) (txo : WalletTXO) (coin : COutput) :
    CoinsLoop :=
  if txo.wtx.version = trucVersion ∧ txo.wtx.depth = 0 ∧ params.checkVersionTrucness then
    { loop with
      trucCoins := loop.trucCoins ++ [coin]
      trucValues := addTrucValue txo.wtx.hash coin.txout.nValue loop.trucValues }
  else { loop with coins := loop.coins ++ [coin] }

def CoinsLoop.enough (loop : CoinsLoop) (params : CoinFilterParams) : Bool :=
  (params.minSumAmount ≠ maxMoney && loop.totalAmount ≥ params.minSumAmount) ||
    (params.maxCount > 0 && loop.coins.length ≥ params.maxCount)

def availableCoinsLoop (w : World Key) (avoidReuse : Bool) (coinControl : Option CCoinControl)
    (params : CoinFilterParams) : List WalletTXO → CoinsLoop → Option (List COutput)
  | [], loop =>
    some (loop.coins ++ if params.checkVersionTrucness then loop.highestValueTruc else [])
  | txo :: txos, loop =>
    ((loop.txSafeCache.lookup txo.wtx.hash).or (checkWalletTx coinControl params txo.wtx)).bind
      fun checked =>
        let loop := { loop with txSafeCache := mapInsert txo.wtx.hash checked loop.txSafeCache }
        let solvable := solvableOutput env w txo
        if !checked.1 || skipsOutput avoidReuse coinControl params solvable txo then
          availableCoinsLoop w avoidReuse coinControl params txos loop
        else
          let coin : COutput :=
            ⟨txo.outpoint, txo.txout, txo.wtx.depth, calculateMaximumSignedInputSize txo, solvable,
              checked.2, txo.wtx.time, txo.wtx.fromMe⟩
          let loop := loop.add params txo coin
          if loop.enough params then some loop.coins
          else availableCoinsLoop w avoidReuse coinControl params txos loop

def availableCoins (w : World Key) (avoidReuse : Bool) (coinControl : Option CCoinControl)
    (params : CoinFilterParams) (txos : List WalletTXO) : Option (List COutput) :=
  availableCoinsLoop env w avoidReuse coinControl params txos ⟨[], [], [], []⟩

variable {env} {w : World Key}

theorem CoinsLoop.highestValueTruc_subset (loop : CoinsLoop) : loop.highestValueTruc ⊆ loop.trucCoins := by
  rw [highestValueTruc]
  split
  · exact List.nil_subset _
  · exact fun _ h => (List.mem_filter.mp h).1

theorem CoinsLoop.mem_add {loop : CoinsLoop} {params : CoinFilterParams} {txo : WalletTXO} {added coin : COutput}
    (h : coin ∈ (loop.add params txo added).coins ++ (loop.add params txo added).trucCoins) :
    coin = added ∨ coin ∈ loop.coins ++ loop.trucCoins := by
  rw [add] at h
  split at h
  all_goals
    simp only [List.mem_append, List.mem_singleton] at h ⊢
    tauto

/-- Every coin that the loop gives is one of its outputs, or was there before. -/
theorem mem_availableCoinsLoop {avoidReuse : Bool} {coinControl : Option CCoinControl}
    {params : CoinFilterParams} {txos : List WalletTXO} {loop : CoinsLoop} {out : List COutput}
    (h : availableCoinsLoop env w avoidReuse coinControl params txos loop = some out) {coin : COutput}
    (hcoin : coin ∈ out) :
    (∃ txo ∈ txos, coin.txout = txo.txout) ∨ coin ∈ loop.coins ++ loop.trucCoins := by
  induction txos generalizing loop with
  | nil =>
    obtain rfl := Option.some.inj h
    refine Or.inr (List.mem_append.mpr ((List.mem_append.mp hcoin).imp_right fun hcoin => ?_))
    split at hcoin
    · exact loop.highestValueTruc_subset hcoin
    · cases hcoin
  | cons txo txos ih =>
    have hlater : (∃ t ∈ txos, coin.txout = t.txout) → ∃ t ∈ txo :: txos, coin.txout = t.txout :=
      fun ⟨t, ht, he⟩ => ⟨t, List.mem_cons_of_mem _ ht, he⟩
    obtain ⟨checked, -, h⟩ := Option.bind_eq_some_iff.mp h
    dsimp only at h
    split at h
    · exact (ih h).imp_left hlater
    have hhere : coin.txout = txo.txout → ∃ t ∈ txo :: txos, coin.txout = t.txout :=
      fun he => ⟨txo, List.mem_cons_self, he⟩
    split at h
    · obtain rfl := Option.some.inj h
      exact (CoinsLoop.mem_add (List.mem_append_left _ hcoin)).imp_left fun he => hhere (by rw [he])
    · rcases ih h with hmem | hmem
      · exact Or.inl (hlater hmem)
      · exact (CoinsLoop.mem_add hmem).imp_left fun he => hhere (by rw [he])

/-- An output of the wallet that has not been found unspendable leads to a key. -/
theorem findQuantumKeyForProgram_of_mine {script : CScript} {program : Uint256}
    (hmine : isMine w script = true) (hspend : isUnspendableDescriptorTaproot w.wallet script = false)
    (hprogram : quantumProgramOf script = some program) :
    ∃ ref, findQuantumKeyForProgram w program = some ref := by
  cases hchange : w.wallet.quantumChangePrograms program with
  | some index => exact ⟨⟨true, index⟩, by rw [findQuantumKeyForProgram, hchange]⟩
  | none =>
    suffices hindex : (findReceiveIndexForQuantumProgram w program).isSome = true by
      obtain ⟨index, hindex⟩ := Option.isSome_iff_exists.mp hindex
      exact ⟨⟨false, index⟩, by rw [findQuantumKeyForProgram, hchange, hindex]; rfl⟩
    by_cases hfirst : w.wallet.quantumProgramBytes = some program
    · simp [findReceiveIndexForQuantumProgram, hchange, hfirst]
    rw [isMine] at hmine
    split at hmine
    · -- No manager caches the script, so it is mine by its program.
      simpa [isQuantumMine, hprogram, hfirst, findQuantumKeyForProgram, hchange] using hmine
    · obtain ⟨id, hid, hmine⟩ := List.any_eq_true.mp hmine
      cases hspkm : w.wallet.findSpkm id with
      | none => simp [hspkm] at hmine
      | some spkm =>
        rw [hspkm, Option.any_some] at hmine
        obtain ⟨entry, hentry, he⟩ := List.any_eq_true.mp hmine
        have hplain : spkm.isDescriptorExpansionScript script = false := by
          simp only [isUnspendableDescriptorTaproot, hprogram, Option.isSome_some, Bool.true_and,
            List.any_eq_false] at hspend
          simpa [hspkm] using hspend id hid
        have hscript : (spkm.findQuantumScript program).isSome = true := by
          rw [DescriptorScriptPubKeyMan.findQuantumScript, Option.isSome_map, List.find?_isSome]
          exact ⟨entry, hentry, by simp [of_decide_eq_true he, hprogram, hplain]⟩
        simp only [findReceiveIndexForQuantumProgram, hchange, hfirst, Option.isSome_none, if_false,
          Bool.false_eq_true, List.findSome?_isSome_iff]
        exact ⟨spkm, List.mem_of_find?_eq_some hspkm, by simp [hscript]⟩

/-- Some call offers an output with this script as solvable. -/
def Offered (env : WalletEnv Key) (w : World Key) (script : CScript) : Prop :=
  ∃ avoidReuse coinControl params txos,
    ∃ coin ∈ (availableCoins env w avoidReuse coinControl params (refreshTXOs w txos)).getD [],
      coin.solvable = true ∧ coin.txout.scriptPubKey = script

theorem Offered.findQuantumKeyForProgram {script : CScript} {program : Uint256} (h : Offered env w script)
    (hprogram : quantumProgramOf script = some program) :
    ∃ ref, findQuantumKeyForProgram w program = some ref := by
  obtain ⟨avoidReuse, coinControl, params, txos, coin, hcoin, -, rfl⟩ := h
  cases hcoins : availableCoins env w avoidReuse coinControl params (refreshTXOs w txos) with
  | none => simp [hcoins] at hcoin
  | some out =>
    rw [hcoins] at hcoin
    obtain ⟨txo, htxo, he⟩ := (mem_availableCoinsLoop hcoins hcoin).resolve_right List.not_mem_nil
    rw [he] at hprogram
    obtain ⟨hmine, hspend⟩ := Bool.and_eq_true_iff.mp (List.mem_filter.mp htxo).2
    exact findQuantumKeyForProgram_of_mine hmine (by simpa using hspend) hprogram

end

def samplePaymentTo (program : Uint256) : WalletTXO :=
  ⟨⟨Uint256.zero, 2, 1, false, false, true, false, false, false, 0, 0, false⟩, 0,
    ⟨100, witnessV1Script program⟩, false, false, false, none, none⟩

def sampleCoinTo (program : Uint256) : COutput :=
  ⟨(samplePaymentTo program).outpoint, (samplePaymentTo program).txout, 1, 2657, true, true, 0, false⟩

theorem offered_of_availableCoins {w : World UInt8} {program : Uint256}
    (h : availableCoins sampleWalletEnv w false none {} (refreshTXOs w [samplePaymentTo program]) =
      some [sampleCoinTo program]) : Offered sampleWalletEnv w (witnessV1Script program) := by
  refine ⟨false, none, {}, [samplePaymentTo program], sampleCoinTo program, ?_, rfl, rfl⟩
  rw [h]
  exact List.mem_singleton_self _

/-- A program of the first root is still offered when a second root is active,
and its index then leads to the second root's key. -/
theorem offered_leads_to_other_root :
    let program := derivedProgram sampleWalletEnv (sampleRoot 0) ⟨false, 1⟩
    let w := walletRun sampleWalletEnv (World.new UInt8 2 sampleSucceeds)
      (sampleAddressEvents ++ [sampleEvent (.importDescriptor
        ⟨sampleDescriptor (sampleRoot 100) 7, [], 0, 0, 0⟩ [(sampleRoot 100).key] true false)])
    Offered sampleWalletEnv w (witnessV1Script program) ∧
      findQuantumKeyForProgram w program = some ⟨false, 1⟩ ∧
      (signingKey sampleWalletEnv w ⟨false, 1⟩ program ⟨.succeeds, .succeeds⟩).bind (programFromManager sampleWalletEnv) =
        some (derivedProgram sampleWalletEnv (sampleRoot 100) ⟨false, 1⟩) ∧
      derivedProgram sampleWalletEnv (sampleRoot 100) ⟨false, 1⟩ ≠ program :=
  ⟨offered_of_availableCoins (by decide +kernel), by decide +kernel, by decide +kernel, by decide +kernel⟩

end Byze
