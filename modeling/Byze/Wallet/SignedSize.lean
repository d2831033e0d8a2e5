import Byze.SignTransaction
import Byze.Wallet.AvailableCoins

/-! The size that the wallet expects a transaction to have once it is signed,
and the size it has with the witnesses of quantum spends. -/

namespace Byze

/-- What a user has given for inputs: a weight, or the output that is spent. -/
structure PresetInputs where
  inputWeight : COutPoint → Option Int
  externalOutput : COutPoint → Option CTxOut

/-- What sizing reads of a wallet. Outputs other than quantum ones are sized by
the descriptor inferred for their script. -/
structure SizingWallet where
  mapWallet : Uint256 → Option CTransaction
  isSegwit : CScript → Bool
  maxInputWeight : CTxIn → CTxOut → Bool → Option Int

structure TxSize where
  vsize : Int
  weight : Int
  deriving DecidableEq

inductive SizeFailure where
  | unknown | assertion
  deriving DecidableEq

section
variable (wallet : SizingWallet) (control : Option PresetInputs)

def spentTxOut (txin : CTxIn) : Except SizeFailure CTxOut :=
  match wallet.mapWallet txin.prevout.hash with
  | some prev =>
    match prev.vout[txin.prevout.n.toNat]? with
    | some txout => pure txout
    | none => throw .assertion
  | none =>
    match control.bind fun preset => preset.externalOutput txin.prevout with
    | some txout => pure txout
    | none => throw .unknown

def getSignedTxinWeight (txin : CTxIn) (txo : CTxOut) (txIsSegwit : Bool) : Option Int :=
  match control.bind fun preset => preset.inputWeight txin.prevout with
  | some weight => some weight
  | none =>
    if (quantumProgramOf txo.scriptPubKey).isSome then some quantumInputWeight
    else wallet.maxInputWeight txin txo txIsSegwit

def checkedTxinWeight (txIsSegwit : Bool) (input : CTxIn × CTxOut) : Except SizeFailure Nat :=
  match getSignedTxinWeight wallet control input.1 input.2 txIsSegwit with
  | none => throw .unknown
  | some weight => if weight > -1 then pure weight.toNat else throw .assertion

def maximumSignedWeight (tx : CTransaction) (txouts : List CTxOut) : Except SizeFailure Nat := do
  let isSegwit := txouts.any fun txo =>
    (quantumProgramOf txo.scriptPubKey).isSome || wallet.isSegwit txo.scriptPubKey
  let inputs ← (tx.vin.zip txouts).mapM (checkedTxinWeight wallet control isSegwit)
  pure ((4 + 4 + getSizeOfCompactSize tx.vin.length + getSizeOfCompactSize tx.vout.length) *
      witnessScaleFactor + (if isSegwit then 2 else 0) +
    (tx.vout.map fun txo => txo.serialize.length * witnessScaleFactor).sum + inputs.sum)

/-- There is no result where an assertion fails. -/
def calculateMaximumSignedTxSize (tx : CTransaction) : Option TxSize :=
  match tx.vin.mapM (spentTxOut wallet control) >>= maximumSignedWeight wallet control tx with
  | .ok weight => some ⟨getVirtualTransactionSize weight, weight⟩
  | .error .unknown => some ⟨-1, -1⟩
  | .error .assertion => none
end

/-- The value that `GetTransactionWeight` returns as a signed integer of 32 bits. -/
def transactionWeight (tx : CTransaction) : Int := (getTransactionWeight tx : Int).bmod (2 ^ 32)

theorem transactionWeight_of_lt {tx : CTransaction} (hfits : getTransactionWeight tx < 2 ^ 31) :
    transactionWeight tx = getTransactionWeight tx := by
  have hbmod : ∀ n : Nat, n < 2 ^ 31 → (n : Int).bmod (2 ^ 32) = n := by
    intro n hn
    exact Int.bmod_eq_of_le (by omega) (by omega)
  exact hbmod _ hfits

def getTransactionInputWeight (txin : CTxIn) : Nat :=
  txin.serialize.length * (witnessScaleFactor - 1) + txin.serialize.length +
    (serializeWitness txin.scriptWitness).length

structure CTxIn.QuantumSigned (txin : CTxIn) : Prop where
  scriptSig : txin.scriptSig = []
  witness : ∃ xmssSig sphincsSig bundle, txin.scriptWitness = [xmssSig, sphincsSig, bundle] ∧
    xmssSig.length = xmssSignatureSize ∧ sphincsSig.length = sphincsSignatureSize ∧
    bundle.length = dualPubkeyBundleSize

variable {txin : CTxIn}

theorem CTxIn.QuantumSigned.serialize_length (hsigned : txin.QuantumSigned) : txin.serialize.length = 41 := by
  rw [CTxIn.serialize_length, hsigned.scriptSig]
  rfl

theorem CTxIn.QuantumSigned.serializeWitness_length (hsigned : txin.QuantumSigned) :
    (serializeWitness txin.scriptWitness).length = 10464 := by
  obtain ⟨xmssSig, sphincsSig, bundle, hwitness, hx, hs, hb⟩ := hsigned.witness
  simp only [serializeWitness, hwitness, serializeVector_length, List.map_cons, List.map_nil,
    List.sum_cons, List.sum_nil, serializeBytes_length, hx, hs, hb, List.length_cons,
    List.length_nil]
  rfl

theorem CTxIn.QuantumSigned.inputWeight (hsigned : txin.QuantumSigned) :
    getTransactionInputWeight txin = quantumInputWeight := by
  rw [getTransactionInputWeight, hsigned.serialize_length, hsigned.serializeWitness_length]
  rfl

theorem sum_map_eq {α : Type} {f : α → Nat} {l : List α} {n : Nat} (h : ∀ a ∈ l, f a = n) :
    (l.map f).sum = l.length * n := by
  rw [List.map_congr_left h, List.map_const', List.sum_replicate, smul_eq_mul]

theorem getTransactionWeight_of_quantumSigned {tx : CTransaction}
    (hsigned : ∀ txin ∈ tx.vin, txin.QuantumSigned) :
    getTransactionWeight tx =
      (4 + 4 + getSizeOfCompactSize tx.vin.length + getSizeOfCompactSize tx.vout.length) *
        witnessScaleFactor + (if tx.vin = [] then 0 else 2) +
      (tx.vout.map fun txo => txo.serialize.length * witnessScaleFactor).sum +
      tx.vin.length * quantumInputWeight := by
  have hinputs := sum_map_eq fun txin h => (hsigned txin h).serialize_length
  have hwitnesses := sum_map_eq fun txin h => (hsigned txin h).serializeWitness_length
  have houts : (tx.vout.map fun txo => txo.serialize.length * witnessScaleFactor).sum =
      (tx.vout.map fun txo => txo.serialize.length).sum * witnessScaleFactor :=
    List.sum_map_mul_right _ _ _
  have hweight : quantumInputWeight = 10628 := rfl
  rw [getTransactionWeight_eq, CTransaction.serialize_false_length, CTransaction.witnessSize, hinputs,
    houts, hweight, witnessScaleFactor]
  by_cases hnil : tx.vin = []
  · have hnone : tx.hasWitness = false := by simp [CTransaction.hasWitness, hnil]
    simp only [hnone, hnil, List.length_nil, if_true]
    simp
    omega
  · have hsome : tx.hasWitness = true := by
      obtain ⟨txin, hmem⟩ := List.exists_mem_of_ne_nil _ hnil
      obtain ⟨xmssSig, sphincsSig, bundle, hwitness, -⟩ := (hsigned txin hmem).witness
      exact List.any_eq_true.mpr ⟨txin, hmem, by simp [hwitness]⟩
    rw [if_neg hnil, if_pos hsome, hwitnesses]
    omega

section
variable {wallet : SizingWallet} {control : Option PresetInputs} {tx : CTransaction}

def SizingWallet.Knows (wallet : SizingWallet) (txin : CTxIn) : Prop :=
  ∃ prev txout, wallet.mapWallet txin.prevout.hash = some prev ∧
    prev.vout[txin.prevout.n.toNat]? = some txout ∧
    (quantumProgramOf txout.scriptPubKey).isSome = true

theorem maximumSignedWeight_eq {txouts : List CTxOut} (hlength : txouts.length = tx.vin.length)
    (hquantum : ∀ txo ∈ txouts, (quantumProgramOf txo.scriptPubKey).isSome = true)
    (hpreset : ∀ txin ∈ tx.vin, control.bind (fun preset => preset.inputWeight txin.prevout) = none) :
    maximumSignedWeight wallet control tx txouts = .ok
      ((4 + 4 + getSizeOfCompactSize tx.vin.length + getSizeOfCompactSize tx.vout.length) *
        witnessScaleFactor + (if tx.vin = [] then 0 else 2) +
      (tx.vout.map fun txo => txo.serialize.length * witnessScaleFactor).sum +
      tx.vin.length * quantumInputWeight) := by
  have hsegwit : (txouts.any fun txo =>
      (quantumProgramOf txo.scriptPubKey).isSome || wallet.isSegwit txo.scriptPubKey) =
        decide (tx.vin ≠ []) := by
    cases txouts with
    | nil =>
      have hnil : tx.vin = [] := List.length_eq_zero_iff.mp hlength.symm
      simp [hnil]
    | cons txo txouts =>
      have hne : tx.vin ≠ [] := List.ne_nil_of_length_pos (by rw [← hlength]; simp)
      simp [hquantum txo, hne]
  obtain ⟨inputs, hinputs, hcount, hall⟩ := ExceptEq.mapM_ok (l := tx.vin.zip txouts)
    (f := checkedTxinWeight wallet control (decide (tx.vin ≠ [])))
    (P := fun weight => weight = quantumInputWeight) (by
      intro input hinput
      obtain ⟨hin, hout⟩ := List.of_mem_zip hinput
      refine ⟨quantumInputWeight, ?_, rfl⟩
      simp only [checkedTxinWeight, getSignedTxinWeight, hpreset _ hin, hquantum _ hout, if_true]
      rfl)
  have hsum := @sum_map_eq _ id inputs _ hall
  rw [List.map_id, hcount, List.length_zip, hlength, Nat.min_self] at hsum
  simp only [maximumSignedWeight, hsegwit, hinputs, ExceptEq.ok_bind, ExceptEq.pure_eq_ok, hsum]
  by_cases hnil : tx.vin = [] <;> simp [hnil]

theorem mapM_spentTxOut (hknown : ∀ txin ∈ tx.vin, wallet.Knows txin) :
    ∃ txouts, tx.vin.mapM (spentTxOut wallet control) = .ok txouts ∧ txouts.length = tx.vin.length ∧
      ∀ txo ∈ txouts, (quantumProgramOf txo.scriptPubKey).isSome = true := by
  refine ExceptEq.mapM_ok fun txin hin => ?_
  obtain ⟨prev, txout, hprev, hout, hquantum⟩ := hknown txin hin
  exact ⟨txout, by simp [spentTxOut, hprev, hout], hquantum⟩

theorem calculateMaximumSignedTxSize_of_knows (hknown : ∀ txin ∈ tx.vin, wallet.Knows txin)
    (hpreset : ∀ txin ∈ tx.vin, control.bind (fun preset => preset.inputWeight txin.prevout) = none)
    (signed : SignedCopy tx) (hsigned : ∀ txin ∈ signed.mtx.vin, txin.QuantumSigned) :
    calculateMaximumSignedTxSize wallet control tx =
      some ⟨((getTransactionWeight signed.mtx + 3) / 4 : Nat), getTransactionWeight signed.mtx⟩ := by
  obtain ⟨txouts, htxouts, hlength, hquantum⟩ := @mapM_spentTxOut wallet control tx hknown
  have hnil : (signed.mtx.vin = []) = (tx.vin = []) := by
    rw [← List.length_eq_zero_iff, ← List.length_eq_zero_iff, signed.length_eq]
  have hweight := getTransactionWeight_of_quantumSigned hsigned
  simp only [signed.length_eq, signed.vout_eq, hnil] at hweight
  rw [calculateMaximumSignedTxSize, htxouts, ExceptEq.ok_bind,
    maximumSignedWeight_eq hlength hquantum hpreset, ← hweight]
  rfl

/-- The expected size is the size, as long as no weight was given for an input
and the weight fits a signed integer of 32 bits. -/
theorem calculateMaximumSignedTxSize_exact (hknown : ∀ txin ∈ tx.vin, wallet.Knows txin)
    (hpreset : ∀ txin ∈ tx.vin, control.bind (fun preset => preset.inputWeight txin.prevout) = none)
    (signed : SignedCopy tx) (hsigned : ∀ txin ∈ signed.mtx.vin, txin.QuantumSigned)
    (hfits : getTransactionWeight signed.mtx < 2 ^ 31) :
    calculateMaximumSignedTxSize wallet control tx =
      some ⟨(transactionWeight signed.mtx + 3) / 4, transactionWeight signed.mtx⟩ := by
  have hsame := transactionWeight_of_lt hfits
  rw [calculateMaximumSignedTxSize_of_knows hknown hpreset signed hsigned, hsame]
  rfl
end

def sampleSizingWallet : SizingWallet where
  mapWallet _ := some ⟨2, [], [⟨1, op1 :: 0x20 :: Uint256.zero.val⟩], 0⟩
  isSegwit _ := false
  maxInputWeight _ _ _ := none

def spendOf (n : Nat) : CTransaction :=
  ⟨2, List.replicate n ⟨⟨Uint256.zero, 0⟩, [], 0, []⟩, [], 0⟩

def signedSpendOf (n : Nat) : SignedCopy (spendOf n) where
  mtx := { spendOf n with
    vin := List.replicate n ⟨⟨Uint256.zero, 0⟩, [], 0,
      [List.replicate xmssSignatureSize 0, List.replicate sphincsSignatureSize 0,
        List.replicate dualPubkeyBundleSize 0]⟩ }
  version_eq := rfl
  vout_eq := rfl
  nLockTime_eq := rfl
  vin_eq := by simp [spendOf, CTxIn.unsigned]

theorem knows_spendOf {n : Nat} : ∀ txin ∈ (spendOf n).vin, sampleSizingWallet.Knows txin := by
  intro txin hin
  rw [List.eq_of_mem_replicate hin]
  refine ⟨_, _, rfl, rfl, ?_⟩
  rw [quantumProgramOf_eq]
  rfl

theorem quantumSigned_spendOf {n : Nat} : ∀ txin ∈ (signedSpendOf n).mtx.vin, txin.QuantumSigned := by
  intro txin hin
  rw [List.eq_of_mem_replicate hin]
  exact ⟨rfl, _, _, _, rfl, List.length_replicate, List.length_replicate, List.length_replicate⟩

theorem getTransactionWeight_spendOf {n : Nat} (hn : 0 < n) :
    getTransactionWeight (signedSpendOf n).mtx = (9 + getSizeOfCompactSize n) * 4 + 2 + n * 10628 := by
  have hweight := getTransactionWeight_of_quantumSigned (@quantumSigned_spendOf n)
  have hvin : (signedSpendOf n).mtx.vin.length = n := List.length_replicate
  have hvout : (signedSpendOf n).mtx.vout = [] := rfl
  have hne : (signedSpendOf n).mtx.vin ≠ [] := List.ne_nil_of_length_pos (by omega)
  have hempty : getSizeOfCompactSize 0 = 1 := rfl
  have hinput : quantumInputWeight = 10628 := rfl
  rw [hvin, hvout, if_neg hne, List.length_nil, hempty, hinput, witnessScaleFactor] at hweight
  simp only [List.map_nil, List.sum_nil] at hweight
  omega

theorem calculateMaximumSignedTxSize_exact_sample :
    calculateMaximumSignedTxSize sampleSizingWallet none (spendOf 1) =
      some ⟨(transactionWeight (signedSpendOf 1).mtx + 3) / 4, transactionWeight (signedSpendOf 1).mtx⟩ :=
  calculateMaximumSignedTxSize_exact knows_spendOf (fun _ _ => rfl) (signedSpendOf 1)
    quantumSigned_spendOf (by
      rw [getTransactionWeight_spendOf Nat.one_pos, getSizeOfCompactSize_eq_one (by omega)]
      omega)

/-- A weight given for an input is taken as it is, and the weight of 300000
inputs does not fit 32 bits. -/
theorem calculateMaximumSignedTxSize_differs : calculateMaximumSignedTxSize sampleSizingWallet
        (some ⟨fun _ => some 4, fun _ => none⟩) (spendOf 1) = some ⟨12, 46⟩ ∧
      transactionWeight (signedSpendOf 1).mtx = 10670 ∧
    calculateMaximumSignedTxSize sampleSizingWallet none (spendOf 300000) = some ⟨797100015, 3188400058⟩ ∧
      transactionWeight (signedSpendOf 300000).mtx = -1106567238 := by
  have hone := getTransactionWeight_spendOf Nat.one_pos
  rw [getSizeOfCompactSize_eq_one (by omega)] at hone
  have hmany := getTransactionWeight_spendOf (show 0 < 300000 by omega)
  rw [getSizeOfCompactSize_eq_five (by omega) (by omega)] at hmany
  refine ⟨by decide +kernel, ?_, ?_, ?_⟩
  · rw [transactionWeight_of_lt (by omega), hone]
    rfl
  · rw [calculateMaximumSignedTxSize_of_knows knows_spendOf (fun _ _ => rfl) (signedSpendOf 300000)
      quantumSigned_spendOf, hmany]
    decide +kernel
  · have hvalue : ∀ tx n, getTransactionWeight tx = n → transactionWeight tx = (n : Int).bmod (2 ^ 32) := by
      rintro tx _ rfl
      rfl
    rw [hvalue _ _ hmany]
    decide +kernel

end Byze
