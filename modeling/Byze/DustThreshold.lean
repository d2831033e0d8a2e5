import Byze.MiniMiner
import Byze.Wallet.SignedSize

/-! The value below which an output is dust is the fee of an input with a witness
of 107 bytes, whatever the witness is that the output needs. -/

namespace Byze

section
variable {rate : CFeeRate}

theorem FeeFrac.evaluateFeeUp_spec {r : FeeFrac} (hsize : 0 < r.size) (atSize : Int) :
    r.fee * atSize ≤ r.size * r.evaluateFeeUp atSize ∧
      r.size * r.evaluateFeeUp atSize < r.fee * atSize + r.size := by
  have hdiv := Int.mul_ediv_add_emod (-(r.fee * atSize)) r.size
  have hnonneg := Int.emod_nonneg (-(r.fee * atSize)) hsize.ne'
  have hlt := Int.emod_lt_of_pos (-(r.fee * atSize)) hsize
  rw [evaluateFeeUp, mul_neg]
  omega

theorem CFeeRate.getFee_of_nonneg (hsize : 0 < rate.feerate.size) (hfee : 0 ≤ rate.feerate.fee)
    (atSize : Int) : rate.getFee atSize = rate.feerate.evaluateFeeUp atSize := by
  have hneg : ¬rate.feerate.fee < 0 := by omega
  simp [getFee, hsize.ne', hneg]

theorem CFeeRate.getFee_le_iff_of_pos (hsize : 0 < rate.feerate.size) (hfee : 0 < rate.feerate.fee) :
    rate.getFee 2657 ≤ rate.getFee 110 ↔ 2657 * rate.feerate.fee ≤ rate.feerate.size := by
  rw [getFee_of_nonneg hsize hfee.le, getFee_of_nonneg hsize hfee.le]
  obtain ⟨hlow, hhigh⟩ := FeeFrac.evaluateFeeUp_spec hsize 2657
  obtain ⟨hlow', hhigh'⟩ := FeeFrac.evaluateFeeUp_spec hsize 110
  generalize rate.feerate.evaluateFeeUp 2657 = e at *
  generalize rate.feerate.evaluateFeeUp 110 = e' at *
  generalize rate.feerate.size = s at *
  constructor
  · intro hle
    by_contra hlt
    have hmono : s * e ≤ s * e' := Int.mul_le_mul_of_nonneg_left hle hsize.le
    have hone : e' ≤ 1 := by
      by_contra htwo
      have hdouble : s * 2 ≤ s * e' := Int.mul_le_mul_of_nonneg_left (by omega) hsize.le
      omega
    have hbound : s * e ≤ s * 1 := Int.mul_le_mul_of_nonneg_left (by omega) hsize.le
    omega
  · intro hle
    have hone : e ≤ 1 := by
      by_contra htwo
      have hdouble : s * 2 ≤ s * e := Int.mul_le_mul_of_nonneg_left (by omega) hsize.le
      omega
    have hpositive : 1 ≤ e' := by
      by_contra hzero
      have hnonpos : s * e' ≤ s * 0 := Int.mul_le_mul_of_nonneg_left (by omega) hsize.le
      omega
    omega

theorem CFeeRate.getFee_le_of_nonpos (hsize : 0 < rate.feerate.size) (hfee : rate.feerate.fee ≤ 0) :
    rate.getFee 2657 ≤ rate.getFee 110 := by
  obtain ⟨hlow, hhigh⟩ := FeeFrac.evaluateFeeUp_spec hsize 2657
  obtain ⟨hlow', hhigh'⟩ := FeeFrac.evaluateFeeUp_spec hsize 110
  simp only [getFee, hsize.ne', if_false]
  generalize rate.feerate.evaluateFeeUp 2657 = e at *
  generalize rate.feerate.evaluateFeeUp 110 = e' at *
  generalize rate.feerate.size = s at *
  have hle : e ≤ e' := by
    by_contra hgt
    have hmono : s * (e' + 1) ≤ s * e := Int.mul_le_mul_of_nonneg_left (by omega) hsize.le
    rw [mul_add] at hmono
    omega
  split <;> split <;> omega

theorem CFeeRate.getFee_le_iff : rate.getFee 2657 ≤ rate.getFee 110 ↔
      rate.feerate.size = 0 ∨ rate.feerate.fee ≤ 0 ∨ 2657 * rate.feerate.fee ≤ rate.feerate.size := by
  have hnonneg := rate.size_nonneg
  by_cases hempty : rate.feerate.size = 0
  · simp [getFee, hempty]
  · have hsize : 0 < rate.feerate.size := by omega
    by_cases hfee : rate.feerate.fee ≤ 0
    · simp [getFee_le_of_nonpos hsize hfee, hfee]
    · rw [getFee_le_iff_of_pos hsize (by omega)]
      simp [hempty, hfee]
end

def dustInputSize (scriptPubKey : CScript) : Nat :=
  if (isWitnessProgram scriptPubKey).isSome then 32 + 4 + 1 + 107 / witnessScaleFactor + 4
  else 32 + 4 + 1 + 107 + 4

def getDustThreshold (txout : CTxOut) (dustRelayFee : CFeeRate) : Int :=
  if isUnspendable txout.scriptPubKey then 0
  else dustRelayFee.getFee (txout.serialize.length + dustInputSize txout.scriptPubKey)

def isDust (txout : CTxOut) (dustRelayFee : CFeeRate) : Bool :=
  txout.nValue < getDustThreshold txout dustRelayFee

def inputFee (rate : CFeeRate) (txin : CTxIn) : Int :=
  rate.getFee (getVirtualTransactionSize (getTransactionInputWeight txin))

theorem getDustThreshold_quantum {txout : CTxOut}
    (hquantum : isQuantumOutput txout.scriptPubKey = true) (rate : CFeeRate) :
    getDustThreshold txout rate = rate.getFee 110 := by
  obtain ⟨program, hprogram, hscript⟩ := (isQuantumOutput_iff _).mp hquantum
  have hspendable : isUnspendable txout.scriptPubKey = false := by
    simp [isUnspendable, hscript, op1, hprogram, maxScriptSize]
  have hwitness : (isWitnessProgram txout.scriptPubKey).isSome = true := by
    simp [isWitnessProgram, hscript, hprogram, op1, op16]
  have hlength : txout.serialize.length = 43 := by
    rw [CTxOut.serialize_length, hscript]
    simp [hprogram, getSizeOfCompactSize]
  rw [getDustThreshold, hspendable, hlength, dustInputSize, hwitness]
  rfl

theorem inputFee_of_quantumSigned {txin : CTxIn} (hsigned : txin.QuantumSigned) (rate : CFeeRate) :
    inputFee rate txin = rate.getFee 2657 := by
  rw [inputFee, hsigned.inputWeight]
  rfl

/-- Outputs that are no dust at a rate are worth what spending them costs exactly
at the rates that charge one unit at most for an input, or nothing. -/
theorem dust_economic_iff (rate : CFeeRate) :
    (∀ txout txin, isQuantumOutput txout.scriptPubKey = true → txin.QuantumSigned →
        getDustThreshold txout rate ≤ txout.nValue → inputFee rate txin ≤ txout.nValue) ↔
      rate.feerate.size = 0 ∨ rate.feerate.fee ≤ 0 ∨ 2657 * rate.feerate.fee ≤ rate.feerate.size := by
  rw [← CFeeRate.getFee_le_iff]
  constructor
  · intro heconomic
    have hquantum := (isQuantumOutput_iff _).mpr ⟨_, Uint256.zero.property, rfl⟩
    have hsigned := @quantumSigned_spendOf 1 _ List.mem_cons_self
    have hle := heconomic ⟨rate.getFee 110, op1 :: 0x20 :: Uint256.zero.val⟩ _ hquantum hsigned
      (getDustThreshold_quantum hquantum rate).le
    rwa [inputFee_of_quantumSigned hsigned] at hle
  · intro hle txout txin hquantum hsigned hdust
    rw [getDustThreshold_quantum hquantum] at hdust
    rw [inputFee_of_quantumSigned hsigned]
    omega

def defaultDustRelayFee : CFeeRate := ⟨⟨3000, 1000⟩, by decide, by decide⟩

/-- At the default rate of 3000 an output of 330 is no dust, and spending it
costs 7971. -/
theorem dust_not_economic : isDust ⟨330, op1 :: 0x20 :: Uint256.zero.val⟩ defaultDustRelayFee = false ∧
      isQuantumOutput (op1 :: 0x20 :: Uint256.zero.val) = true ∧
      ∀ txin ∈ (signedSpendOf 1).mtx.vin, txin.QuantumSigned ∧ inputFee defaultDustRelayFee txin = 7971 := by
  refine ⟨by decide +kernel, by decide +kernel, fun txin hin => ?_⟩
  have hsigned := quantumSigned_spendOf txin hin
  exact ⟨hsigned, by rw [inputFee_of_quantumSigned hsigned]; decide +kernel⟩

end Byze
