import Byze.Coins
import Byze.ProduceSignature

/-! `SignTransaction` signs an input anew although it carries a witness that the
final check accepts, since the check before it runs without transaction data. -/

namespace Byze

def CTxIn.unsigned (txin : CTxIn) : CTxIn := { txin with scriptSig := [], scriptWitness := [] }

structure SignedCopy (tx : CTransaction) where
  mtx : CTransaction
  version_eq : mtx.version = tx.version
  vout_eq : mtx.vout = tx.vout
  nLockTime_eq : mtx.nLockTime = tx.nLockTime
  vin_eq : mtx.vin.map CTxIn.unsigned = tx.vin.map CTxIn.unsigned

namespace SignedCopy
variable {tx : CTransaction}

def refl (tx : CTransaction) : SignedCopy tx := ⟨tx, rfl, rfl, rfl, rfl⟩

theorem length_eq (copy : SignedCopy tx) : copy.mtx.vin.length = tx.vin.length := by
  simpa using congrArg List.length copy.vin_eq

theorem flatMap_eq {α : Type} (copy : SignedCopy tx) (f : CTxIn → List α) (hf : ∀ txin, f txin.unsigned = f txin) :
    copy.mtx.vin.flatMap f = tx.vin.flatMap f := by
  have h := congrArg (List.flatMap f) copy.vin_eq
  simpa only [List.flatMap_map, hf] using h

theorem init_eq (copy : SignedCopy tx) (h : Hashes) (spentOutputs : List CTxOut) :
    PrecomputedTransactionData.init h copy.mtx spentOutputs true =
      PrecomputedTransactionData.init h tx spentOutputs true := by
  have hprevouts : getPrevoutsSHA256 h copy.mtx = getPrevoutsSHA256 h tx :=
    congrArg h.sha256 (copy.flatMap_eq (fun txin => txin.prevout.serialize) fun _ => rfl)
  have hsequences : getSequencesSHA256 h copy.mtx = getSequencesSHA256 h tx :=
    congrArg h.sha256 (copy.flatMap_eq (fun txin => serializeUint32 txin.nSequence) fun _ => rfl)
  have houtputs : getOutputsSHA256 h copy.mtx = getOutputsSHA256 h tx := by
    simp [getOutputsSHA256, copy.vout_eq]
  simp [PrecomputedTransactionData.init, usesBip341Taproot, hprevouts, hsequences, houtputs, copy.length_eq]

def updateInput (copy : SignedCopy tx) (i : Nat) (data : SignatureData) : SignedCopy tx where
  mtx := { copy.mtx with
    vin := copy.mtx.vin.modify i fun txin =>
      { txin with scriptSig := data.scriptSig, scriptWitness := data.scriptWitness } }
  version_eq := copy.version_eq
  vout_eq := copy.vout_eq
  nLockTime_eq := copy.nLockTime_eq
  vin_eq := by
    rw [← copy.vin_eq]
    apply List.ext_getElem?
    intro j
    simp only [List.getElem?_map, List.getElem?_modify]
    cases copy.mtx.vin[j]? with
    | none => rfl
    | some txin =>
      by_cases hj : i = j
      · simp [hj, CTxIn.unsigned]
      · simp [hj]

end SignedCopy

section
variable (h : Hashes) (coins : COutPoint → Option Coin)

def findCoin (prevout : COutPoint) : Option Coin := (coins prevout).filter fun coin => !coin.isSpent

def spentOutputs (tx : CTransaction) : List CTxOut :=
  (tx.vin.mapM fun txin => (findCoin coins txin.prevout).map Coin.out).getD []

def signingData (tx : CTransaction) : Option PrecomputedTransactionData :=
  PrecomputedTransactionData.init h tx (spentOutputs coins tx) true

variable {tx : CTransaction} {i : Nat}

def SignedCopy.checker (copy : SignedCopy tx) (hi : i < tx.vin.length) (amount : Int) : TxContext h where
  txTo := copy.mtx
  nIn := i
  amount := amount
  txdata := signingData h coins tx
  mdb := .fail
  nIn_lt := copy.length_eq ▸ hi
  txdata_init _ hd := ⟨spentOutputs coins tx, true, (copy.init_eq h _).trans hd⟩

def SignedCopy.bareChecker (copy : SignedCopy tx) (hi : i < tx.vin.length) (amount : Int) : TxContext h where
  txTo := copy.mtx
  nIn := i
  amount := amount
  txdata := none
  mdb := .fail
  nIn_lt := copy.length_eq ▸ hi
  txdata_init _ hd := by cases hd
end

structure SigningEnv (h : Hashes) where
  oqs : OqsVerify
  ops : LegacyOps
  legacy : LegacySigning h
  scriptErrorString : ScriptError → String

structure SigningState (tx : CTransaction) where
  copy : SignedCopy tx
  inputErrors : List (Nat × String)

section
variable {h : Hashes} (env : SigningEnv h) (coins : COutPoint → Option Coin) {tx : CTransaction}

def inputError (serror : ScriptError) : String :=
  if serror = .invalidStackOperation then
    "Unable to sign input, invalid stack size (possibly missing key)"
  else if serror = .sigNullFail then
    "CHECK(MULTI)SIG failing with non-zero signature (possibly need more signatures)"
  else env.scriptErrorString serror

def dataFromTransaction (copy : SignedCopy tx) {i : Nat} (hi : i < tx.vin.length) (txin : CTxIn)
    (txout : CTxOut) : SignatureData where
  complete := verifiesStandard env.oqs env.ops (copy.bareChecker h hi txout.nValue) txin.scriptSig
    txout.scriptPubKey txin.scriptWitness
  witness := false
  scriptSig := txin.scriptSig
  scriptWitness := txin.scriptWitness

def checkSigned {i : Nat} (hi : i < tx.vin.length) (txout : CTxOut) (sigdata : SignatureData) : Option String :=
  if txout.nValue = maxMoney ∧ sigdata.scriptWitness ≠ [] then some "Missing amount"
  else if sigdata.complete then none
  else
    match verifyScript h env.ops.toPubKeyOps standardScriptVerifyFlags
      (transactionSignatureChecker env.oqs env.ops ((SignedCopy.refl tx).checker h coins hi txout.nValue))
      sigdata.scriptSig txout.scriptPubKey (some sigdata.scriptWitness) with
    | .ok _ => none
    | .error (.fail serror) => some (inputError env serror)
    | .error .abort => some (inputError env .unknownError)

def fHashSingle (nHashType : Int) : Bool := nHashType = 3 ∨ nHashType = 0x83

variable {m : Type → Type} [Monad m] (sign : Nat → Uint256 → Bytes → m (Option QuantumSignature))
  (nHashType : Int)

def signedData (copy : SignedCopy tx) {i : Nat} (hi : i < tx.vin.length) (txin : CTxIn) (txout : CTxOut) :
    m SignatureData :=
  let sigdata := dataFromTransaction env copy hi txin txout
  if !fHashSingle nHashType || i < copy.mtx.vout.length then
    produceSignature env.oqs env.ops (sign i) env.legacy
      ⟨copy.checker h coins hi txout.nValue, nHashType, rfl⟩ txout.scriptPubKey sigdata
  else pure sigdata

def SigningState.finishInput (st : SigningState tx) {i : Nat} (hi : i < tx.vin.length) (txout : CTxOut)
    (sigdata : SignatureData) : SigningState tx :=
  let rest := st.inputErrors.filter fun e => e.1 ≠ i
  { copy := st.copy.updateInput i sigdata
    inputErrors := (checkSigned env coins hi txout sigdata).elim rest fun e => (i, e) :: rest }

def SigningState.input (st : SigningState tx) {i : Nat} (hi : i < tx.vin.length) : CTxIn :=
  st.copy.mtx.vin.get ⟨i, st.copy.length_eq ▸ hi⟩

def signInput (st : SigningState tx) (i : Nat) : m (SigningState tx) :=
  if hi : i < tx.vin.length then
    match findCoin coins (st.input hi).prevout with
    | none =>
      pure { st with inputErrors := (i, "Input not found or already spent") ::
               st.inputErrors.filter fun e => e.1 ≠ i }
    | some coin => do
      let sigdata ← signedData env coins sign nHashType st.copy hi (st.input hi) coin.out
      pure (st.finishInput env coins hi coin.out sigdata)
  else pure st

/-- The signed transaction and the errors, which are none where it succeeds. The
signer is told the input, for keeping a record of its calls. -/
def signTransaction (tx : CTransaction) (inputErrors : List (Nat × String)) : m (SigningState tx) :=
  (List.range tx.vin.length).foldlM (signInput env coins sign nHashType) ⟨SignedCopy.refl tx, inputErrors⟩
end

def recordCalls {σ : Type} (signer : Uint256 → Bytes → StateM σ (Option QuantumSignature)) (i : Nat)
    (sighash : Uint256) (outputKey : Bytes) : StateM (List Nat × σ) (Option QuantumSignature) :=
  fun s =>
    let r := signer sighash outputKey s.2
    (r.1, (i :: s.1, r.2))

/-- The input carries a witness that the final check accepts as it is. -/
def CarriesWitness {h : Hashes} (env : SigningEnv h) (coins : COutPoint → Option Coin) (tx : CTransaction)
    (i : Nat) : Prop :=
  ∃ hi : i < tx.vin.length, ∃ coin, findCoin coins tx.vin[i].prevout = some coin ∧
    verifiesStandard env.oqs env.ops ((SignedCopy.refl tx).checker h coins hi coin.out.nValue)
      tx.vin[i].scriptSig coin.out.scriptPubKey tx.vin[i].scriptWitness = true

section
variable {h : Hashes} {env : SigningEnv h} {coins : COutPoint → Option Coin} {tx : CTransaction} {σ : Type}
  {signer : Uint256 → Bytes → StateM σ (Option QuantumSignature)} {nHashType : Int}

theorem SignedCopy.updateInput_get?_of_ne {copy : SignedCopy tx} {data : SignatureData} {i j : Nat} (hij : j ≠ i) :
    (copy.updateInput j data).mtx.vin[i]? = copy.mtx.vin[i]? := by
  simp [updateInput, hij]

variable {i : Nat}

theorem SignedCopy.updateInput_get?_self {copy : SignedCopy tx} {data : SignatureData} :
    (copy.updateInput i data).mtx.vin[i]? = copy.mtx.vin[i]?.map fun txin =>
      { txin with scriptSig := data.scriptSig, scriptWitness := data.scriptWitness } := by
  simp [updateInput]

variable (env) in
/-- No input is ever taken for complete before it is signed. -/
theorem dataFromTransaction_complete (copy : SignedCopy tx) (hi : i < tx.vin.length)
    (txin : CTxIn) (txout : CTxOut) : (dataFromTransaction env copy hi txin txout).complete = false := by
  by_contra hne
  obtain ⟨-, -, hhash⟩ := verifiesStandard_cases (Bool.not_eq_false _ ▸ hne)
  cases hhash

def CallsOnly (j : Nat) (s t : List Nat × σ) : Prop := t.1 = s.1 ∨ t.1 = j :: s.1

theorem createQuantumSig_calls (creator : MutableTransactionSignatureCreator h) (outputKey : Uint256)
    (j : Nat) (s : List Nat × σ) :
    CallsOnly j s (createQuantumSig (recordCalls signer j) creator outputKey s).2 := by
  cases hhash : computeSchnorrSignatureHash creator with
  | none =>
    simp only [createQuantumSig, hhash]
    exact Or.inl rfl
  | some sighash =>
    simp only [createQuantumSig, hhash]
    exact Or.inr rfl

theorem produceSignature_calls (creator : MutableTransactionSignatureCreator h) (fromPubKey : CScript)
    {sigdata : SignatureData} (hc : sigdata.complete = false) (j : Nat) (s : List Nat × σ) :
    CallsOnly j s
      (produceSignature env.oqs env.ops (recordCalls signer j) env.legacy creator fromPubKey sigdata s).2 := by
  cases hq : quantumProgramOf fromPubKey with
  | some outputKey =>
    simp only [produceSignature, hc, hq]
    exact createQuantumSig_calls creator outputKey j s
  | none =>
    cases hr : (env.legacy.redeemScript fromPubKey).bind quantumProgramOf with
    | some outputKey =>
      simp only [produceSignature, hc, hq, hr]
      exact createQuantumSig_calls creator outputKey j s
    | none =>
      simp only [produceSignature, hc, hq, hr]
      exact Or.inl rfl

variable (env coins signer nHashType) in
theorem signedData_calls (copy : SignedCopy tx) {j : Nat} (hj : j < tx.vin.length) (txin : CTxIn)
    (txout : CTxOut) (s : List Nat × σ) :
    CallsOnly j s (signedData env coins (recordCalls signer) nHashType copy hj txin txout s).2 := by
  by_cases hsign : (!fHashSingle nHashType || decide (j < copy.mtx.vout.length)) = true
  · simp only [signedData, hsign]
    exact produceSignature_calls _ _ (dataFromTransaction_complete env copy hj txin txout) j s
  · simp only [signedData, hsign]
    exact Or.inl rfl

theorem signInput_frame {i j : Nat} (hij : j ≠ i) (st : SigningState tx) (s : List Nat × σ) :
    (signInput env coins (recordCalls signer) nHashType st j s).1.copy.mtx.vin[i]? = st.copy.mtx.vin[i]? ∧
      (i ∈ (signInput env coins (recordCalls signer) nHashType st j s).2.1 ↔ i ∈ s.1) := by
  by_cases hj : j < tx.vin.length
  · cases hcoin : findCoin coins (st.input hj).prevout with
    | none =>
      simp only [signInput, hj, hcoin]
      exact ⟨rfl, Iff.rfl⟩
    | some coin =>
      simp only [signInput, hj, hcoin]
      refine ⟨SignedCopy.updateInput_get?_of_ne hij, ?_⟩
      change i ∈ (signedData env coins (recordCalls signer) nHashType st.copy hj (st.input hj) coin.out s).2.1 ↔ _
      rcases signedData_calls env coins signer nHashType st.copy hj (st.input hj) coin.out s with
        hcalls | hcalls
      · rw [hcalls]
      · rw [hcalls, List.mem_cons]
        exact ⟨fun hmem => hmem.resolve_left hij.symm, Or.inr⟩
  · simp only [signInput, hj]
    exact ⟨rfl, Iff.rfl⟩

variable (env coins signer nHashType) in
theorem foldlM_signInput_frame {turns : List Nat} (hi : i ∉ turns) (st : SigningState tx) (s : List Nat × σ) :
    (turns.foldlM (signInput env coins (recordCalls signer) nHashType) st s).1.copy.mtx.vin[i]? =
        st.copy.mtx.vin[i]? ∧
      (i ∈ (turns.foldlM (signInput env coins (recordCalls signer) nHashType) st s).2.1 ↔ i ∈ s.1) := by
  induction turns generalizing st s with
  | nil => exact ⟨rfl, Iff.rfl⟩
  | cons j turns ih =>
    rw [List.mem_cons, not_or] at hi
    obtain ⟨hvin, hcalls⟩ := signInput_frame (fun hij => hi.1 hij.symm) st s
    obtain ⟨hvin', hcalls'⟩ := ih hi.2 (signInput env coins (recordCalls signer) nHashType st j s).1
      (signInput env coins (recordCalls signer) nHashType st j s).2
    exact ⟨hvin'.trans hvin, hcalls'.trans hcalls⟩

theorem fHashSingle_masked (hs : fHashSingle nHashType = true) :
    UInt8.ofInt nHashType &&& sighashOutputMask = sighashSingle := by
  simp only [fHashSingle, decide_eq_true_eq] at hs
  rcases hs with rfl | rfl <;> decide

variable (env signer nHashType) in
theorem signedData_quantum (copy : SignedCopy tx) (hi : i < tx.vin.length) (txin : CTxIn)
    {txout : CTxOut} (hq : (quantumProgramOf txout.scriptPubKey).isSome = true)
    (hk : (copy.checker h coins hi txout.nValue).keyPathHash.isSome = true) {s : List Nat × σ} (hs : i ∉ s.1) :
    ((signedData env coins (recordCalls signer) nHashType copy hi txin txout s).1.scriptWitness =
        txin.scriptWitness ∧
      i ∉ (signedData env coins (recordCalls signer) nHashType copy hi txin txout s).2.1) ↔
      ¬ SelectsHash tx i nHashType := by
  let creator : MutableTransactionSignatureCreator h := ⟨copy.checker h coins hi txout.nValue, nHashType, rfl⟩
  have hc := dataFromTransaction_complete env copy hi txin txout
  have hhash := computeSchnorrSignatureHash_isSome_iff creator
  have hselects : SelectsHash creator.checker.txTo creator.checker.nIn creator.nHashType ↔
      SelectsHash tx i nHashType := by
    change SelectsHash copy.mtx i nHashType ↔ _
    simp [SelectsHash, copy.vout_eq]
  rw [hselects] at hhash
  obtain ⟨outputKey, hkey⟩ := Option.isSome_iff_exists.mp hq
  by_cases hsign : (!fHashSingle nHashType || decide (i < copy.mtx.vout.length)) = true
  · simp only [signedData, hsign, produceSignature, hc, hkey]
    cases hcompute : computeSchnorrSignatureHash creator with
    | none =>
      have hnot : ¬ SelectsHash tx i nHashType := by
        intro hsel
        have hsome := hhash.mpr ⟨hk, hsel⟩
        rw [hcompute] at hsome
        cases hsome
      simp only [createQuantumSig, creator] at hcompute ⊢
      simp only [hcompute]
      exact ⟨fun _ => hnot, fun _ => ⟨rfl, hs⟩⟩
    | some sighash =>
      have hsel : SelectsHash tx i nHashType := (hhash.mp (by rw [hcompute]; rfl)).2
      simp only [createQuantumSig, creator] at hcompute ⊢
      simp only [hcompute]
      exact ⟨fun hnot => absurd List.mem_cons_self hnot.2, fun hnot => absurd hsel hnot⟩
  · have hnot : ¬ SelectsHash tx i nHashType := by
      intro hsel
      simp only [Bool.or_eq_true, Bool.not_eq_true', decide_eq_true_eq, not_or, Bool.not_eq_false] at hsign
      rw [copy.vout_eq] at hsign
      exact hsign.2 (hsel.2 (fHashSingle_masked hsign.1))
    simp only [signedData, hsign]
    exact ⟨fun _ => hnot, fun _ => ⟨rfl, hs⟩⟩

variable (signer nHashType) in
theorem signInput_own (hw : CarriesWitness env coins tx i) {st : SigningState tx}
    (hst : st.copy.mtx.vin[i]? = tx.vin[i]?) {s : List Nat × σ} (hs : i ∉ s.1) :
    (((signInput env coins (recordCalls signer) nHashType st i s).1.copy.mtx.vin[i]?.map CTxIn.scriptWitness =
        tx.vin[i]?.map CTxIn.scriptWitness) ∧
      i ∉ (signInput env coins (recordCalls signer) nHashType st i s).2.1) ↔
      ¬ SelectsHash tx i nHashType := by
  obtain ⟨hi, coin, hcoin, hverify⟩ := hw
  obtain ⟨-, hq, hk⟩ := verifiesStandard_cases hverify
  have hdata := (TxContext.keyPathHash_isSome_iff _).mp hk
  have hin : st.input hi = tx.vin[i] := by
    have hlt : i < st.copy.mtx.vin.length := st.copy.length_eq ▸ hi
    rw [List.getElem?_eq_getElem hlt, List.getElem?_eq_getElem hi] at hst
    exact Option.some.inj hst
  rw [← hin] at hcoin
  rw [← signedData_quantum env signer nHashType st.copy hi (st.input hi) hq
    ((TxContext.keyPathHash_isSome_iff _).mpr hdata) hs]
  simp only [signInput, hi, dif_pos, hcoin]
  change ((st.copy.updateInput i _).mtx.vin[i]?.map CTxIn.scriptWitness = _ ∧ _) ↔ _
  rw [SignedCopy.updateInput_get?_self, hst, List.getElem?_eq_getElem hi, hin]
  simp
  rfl

/-- An input that carries an accepted witness keeps it, without a call of the
signer, only where the hash type selects nothing to sign. -/
theorem signTransaction_keeps_signed_iff (signer : Uint256 → Bytes → StateM σ (Option QuantumSignature))
    (nHashType : Int) (inputErrors : List (Nat × String)) (s : σ) {i : Nat}
    (hw : CarriesWitness env coins tx i) :
    (((signTransaction env coins (recordCalls signer) nHashType tx inputErrors ([], s)).1.copy.mtx.vin[i]?.map
        CTxIn.scriptWitness = tx.vin[i]?.map CTxIn.scriptWitness) ∧
      i ∉ (signTransaction env coins (recordCalls signer) nHashType tx inputErrors ([], s)).2.1) ↔
      ¬ SelectsHash tx i nHashType := by
  obtain ⟨hi, -⟩ := id hw
  obtain ⟨before, after, hsplit⟩ := List.append_of_mem (List.mem_range.mpr hi)
  have hnodup := hsplit ▸ List.nodup_range
  have hbefore : i ∉ before := fun hmem =>
    (List.nodup_append.mp hnodup).2.2 i hmem i List.mem_cons_self rfl
  have hafter : i ∉ after := (List.nodup_cons.mp (List.nodup_append.mp hnodup).2.1).1
  let step : SigningState tx → Nat → StateM (List Nat × σ) (SigningState tx) :=
    signInput env coins (recordCalls signer) nHashType
  let first := before.foldlM step ⟨SignedCopy.refl tx, inputErrors⟩ ([], s)
  let own := step first.1 i first.2
  have hrun : signTransaction env coins (recordCalls signer) nHashType tx inputErrors ([], s) =
      after.foldlM step own.1 own.2 := by
    simp only [signTransaction, hsplit, List.foldlM_append]
    rfl
  obtain ⟨hvin, hcalls⟩ := foldlM_signInput_frame env coins signer nHashType hbefore
    ⟨SignedCopy.refl tx, inputErrors⟩ ([], s)
  obtain ⟨hvin', hcalls'⟩ := foldlM_signInput_frame env coins signer nHashType hafter own.1 own.2
  have hnone : i ∉ first.2.1 := by
    intro hmem
    cases hcalls.mp hmem
  rw [hrun, hvin', hcalls']
  exact signInput_own signer nHashType hw hvin hnone
end

def sampleSigned : CTransaction := ⟨2, [⟨⟨Uint256.zero, 0⟩, [], 0xffffffff, sampleWitness⟩], [], 0⟩

def sampleCoins (_ : COutPoint) : Option Coin := some ⟨sampleSpent, false, 0⟩

def sampleSigning : SigningEnv sampleHashes where
  oqs := sampleVerify
  ops := sampleLegacyOps
  legacy := ⟨fun _ => none, fun _ _ sigdata _ => sigdata⟩
  scriptErrorString _ := ""

def sampleSigner (_ : Uint256) (_ : Bytes) : StateM Nat (Option QuantumSignature) :=
  fun leaves => (some ⟨List.replicate 2500 1, List.replicate 7856 1, List.replicate 100 0⟩, leaves + 1)

theorem sampleSigned_carriesWitness : CarriesWitness sampleSigning sampleCoins sampleSigned 0 :=
  ⟨by decide, ⟨sampleSpent, false, 0⟩, rfl, by decide +kernel⟩

/-- An unknown hash type signs nothing. -/
theorem signTransaction_keeps_signed_sample : CarriesWitness sampleSigning sampleCoins sampleSigned 0 ∧
    (((signTransaction sampleSigning sampleCoins (recordCalls sampleSigner) 4 sampleSigned [] ([], 0)).1.copy.mtx.vin[0]?.map
        CTxIn.scriptWitness = sampleSigned.vin[0]?.map CTxIn.scriptWitness) ∧
      0 ∉ (signTransaction sampleSigning sampleCoins (recordCalls sampleSigner) 4 sampleSigned [] ([], 0)).2.1) := by
  refine ⟨sampleSigned_carriesWitness, ?_⟩
  refine (signTransaction_keeps_signed_iff sampleSigner 4 [] 0 sampleSigned_carriesWitness).mpr ?_
  unfold SelectsHash
  decide

/-- Signing with the default hash type calls the signer for the signed input. -/
theorem signTransaction_signs_again : CarriesWitness sampleSigning sampleCoins sampleSigned 0 ∧
    ¬ (((signTransaction sampleSigning sampleCoins (recordCalls sampleSigner) 0 sampleSigned [] ([], 0)).1.copy.mtx.vin[0]?.map
        CTxIn.scriptWitness = sampleSigned.vin[0]?.map CTxIn.scriptWitness) ∧
      0 ∉ (signTransaction sampleSigning sampleCoins (recordCalls sampleSigner) 0 sampleSigned [] ([], 0)).2.1) :=
  ⟨sampleSigned_carriesWitness, by decide +kernel⟩

end Byze
