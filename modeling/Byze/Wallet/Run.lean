import Byze.Wallet.Sign

/-! Runs of a wallet: its operations, each with the outcomes of the calls it
makes, and what is left after a crash. -/

namespace Byze

inductive WalletOp where
  /-- `getnewaddress` or `getrawchangeaddress`. -/
  | newAddress (internal : Bool)
  /-- A destination taken without them, as the change of a new transaction is. -/
  | newDestination (internal : Bool)
  | keypoolRefill
  | sign (sighash : Uint256) (outputProgram : Bytes)
  | lock
  | unlock (passphrase : Bytes)
  | encrypt (passphrase : Bytes)
  | changePassphrase (old new : Bytes)
  | setup
  /-- Restoring from the phrase of this entropy. -/
  | restore (entropy : Uint256)
  /-- A payment to the script is seen. -/
  | payment (script : CScript)
  | importDescriptor (desc : WalletDescriptor) (keys : List CKey) (active internal : Bool)
  | reload

def WalletOp.isReload : WalletOp → Bool
  | .reload => true
  | _ => false

structure WalletEvent where
  op : WalletOp
  outcomes : Nat → Outcome

def WalletDb.new : WalletDb where
  quantum := fun _ => none
  quantumPending := none
  quantumChangeBase := fun _ => none
  walletDescriptors := []
  descriptorCaches := fun _ => []
  descriptorKeys := []
  descriptorCKeys := []
  activeExternalSpk := none
  activeInternalSpk := none
  masterKeys := []
  flags := ⟨true, false⟩
  mnemonic := []
  mnemonicPhrase := []

def World.new (Key : Type) (keypoolSize : Nat) (outcomes : Nat → Outcome) : World Key where
  db := .new
  wallet := { CWallet.closed Key keypoolSize with loaded := true, walletFlags := ⟨true, false⟩ }
  outcomes := outcomes
  signedLeaves := []

section
variable {Key : Type} (env : WalletEnv Key)

def importDescriptorUnlocked (desc : WalletDescriptor) (keys : List CKey) (active internal : Bool) :
    WalletM Key PUnit := do
  let w ← get
  if w.wallet.isLocked then
    throw (.exception "Error: Please enter the wallet passphrase with walletpassphrase first.")
  else
    let _ ← processDescriptorImport env desc keys active internal

def runOp : WalletOp → WalletM Key PUnit
  | .newAddress internal => do let _ ← getNewAddress env internal
  | .newDestination internal => do let _ ← getNewDestination env internal
  | .keypoolRefill => topUpKeyPool env
  | .sign sighash outputProgram => do
    let _ ← signQuantumTransactionSighash env sighash outputProgram
  | .lock => do let _ ← lock
  | .unlock passphrase => do let _ ← unlock env passphrase
  | .encrypt passphrase => do let _ ← encryptWallet env passphrase
  | .changePassphrase old new => do let _ ← changeWalletPassphrase env old new
  | .setup => setupDescriptorScriptPubKeyMans env
  | .restore entropy => do let _ ← setupFromEntropy env entropy
  | .payment script => markScriptUsed env script
  | .importDescriptor desc keys active internal =>
    importDescriptorUnlocked env desc keys active internal
  | .reload => do let _ ← loadWallet env

/-- A crash loses what is in memory, and then the wallet has to be loaded. An
exception ends the operation only. -/
def walletStep (w : World Key) (e : WalletEvent) : World Key :=
  if w.wallet.loaded || e.op.isReload then
    match (runOp env e.op).run { w with outcomes := e.outcomes } with
    | (.ok _, w') => w'
    | (.error .crash, w') => closeWallet w'
    | (.error (.exception _), w') => w'
  else w

def walletRun (w : World Key) (es : List WalletEvent) : World Key := es.foldl (walletStep env) w

@[simp] theorem walletRun_append (w : World Key) (es es' : List WalletEvent) :
    walletRun env w (es ++ es') = walletRun env (walletRun env w es) es' :=
  List.foldl_append

theorem walletRun_concat (w : World Key) (es : List WalletEvent) (e : WalletEvent) :
    walletRun env w (es ++ [e]) = walletStep env (walletRun env w es) e :=
  walletRun_append env w es [e]

open StateWp in
theorem walletStep_of {P : World Key → Prop} {w : World Key} {e : WalletEvent}
    (hidle : (w.wallet.loaded || e.op.isReload) = false → P w)
    (hop : (w.wallet.loaded || e.op.isReload) = true →
      wp (runOp env e.op) (fun _ => P) (fun _ => P) { w with outcomes := e.outcomes })
    (hclose : ∀ t, P t → P (closeWallet t)) : P (walletStep env w e) := by
  rw [walletStep]
  by_cases hrun : (w.wallet.loaded || e.op.isReload) = true
  · rw [if_pos hrun]
    have hend := hop hrun
    simp only [wp] at hend
    split <;> rename_i hres <;> rw [hres] at hend
    · exact hend
    · exact hclose _ hend
    · exact hend
  · rw [if_neg hrun]
    exact hidle (by simpa using hrun)
end

def sampleEncrypt (key plain : Bytes) : Option Bytes :=
  if key.length = 32 then some (key ++ plain) else none

def sampleDecrypt (key cipher : Bytes) : Option Bytes :=
  if key.length = 32 ∧ cipher.take 32 = key then some (cipher.drop 32) else none

def sampleCrypter : Crypter where
  encryptSecret key plain _ := sampleEncrypt key plain
  decryptSecret key cipher _ := sampleDecrypt key cipher
  setKeyFromPassphrase passphrase _ _ :=
    (passphrase.take 32 ++ List.replicate (32 - (passphrase.take 32).length) 0, Uint256.zero)
  encryptSecret_isSome key plain iv := by simp [sampleEncrypt, walletCryptoKeySize]
  decryptSecret_encryptSecret key plain iv cipher _ he := by
    obtain ⟨hkey, hc⟩ := Option.ite_none_right_eq_some.mp he
    obtain rfl := Option.some.inj hc
    simp [sampleDecrypt, hkey]
  encryptSecret_length key plain iv cipher _ he := by
    obtain ⟨hkey, hc⟩ := Option.ite_none_right_eq_some.mp he
    obtain rfl := Option.some.inj hc
    simp [hkey]

def sampleDescriptor (master : CExtKey) (tag : UInt8) : Descriptor where
  id := ⟨tag :: (master.val.drop 42).take 31, by simp [master.property]⟩
  outputType := some .bech32m
  isRange := true
  isSingleType := true
  expandFromCache cache index :=
    if cache.contains (master.val.drop 42) then
      some [op1 :: 0x20 :: tag :: LittleEndian.encode 4 index.toNat ++ List.replicate 27 0xff]
    else none
  expand keys index :=
    if keys.contains master.key then
      some ([op1 :: 0x20 :: tag :: LittleEndian.encode 4 index.toNat ++ List.replicate 27 0xff],
        [master.val.drop 42])
    else none
  rootExtKey keys := if keys.contains master.key then some master else none
  rootExtKey_nil := rfl

def sampleEnv (hashes : Hashes) (wordlist : Wordlist) : WalletEnv UInt8 where
  hashes := hashes
  lib := sampleLiboqs
  crypter := sampleCrypter
  getPubKey key := key.val
  masterExtKeyFromEntropy entropy :=
    some ⟨List.replicate 42 0 ++ entropy.val, by simp [entropy.property]⟩
  wordlist := wordlist
  generateWalletDescriptor master internal :=
    ⟨sampleDescriptor master (if internal then 1 else 0), [], 0, 0, 0⟩

def sampleWalletEnv : WalletEnv UInt8 := sampleEnv byteSumHashes englishWordlist

def Outcome.good (random : Uint256) : Outcome :=
  ⟨.succeeds, .succeeds, ⟨.succeeds, .succeeds⟩, ⟨true, .succeeds, true⟩, .succeeds, random, 0⟩

end Byze
