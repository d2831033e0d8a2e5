import Byze.CheckBlock

/-! The proof-of-work hash with the setting up of RandomX behind it, and the
check of a header where that fails. -/

namespace Byze

structure RandomXAllocs where
  cache : Bool
  dataset : Bool
  vm : Bool
  deriving DecidableEq

/-- Whether RandomX is set up afterwards. The dataset is needed whatever the
other flags are. -/
def initializeRandomX (randomxInitialized : Bool) (allocs : RandomXAllocs) : Bool :=
  if randomxInitialized then true
  else if !allocs.cache then false
  else if !allocs.dataset then false
  else if !allocs.vm then false
  else true

section
variable (calculateHash : Bytes → Uint256)

def randomXHash (header : CBlockHeader) (randomxInitialized : Bool) (allocs : RandomXAllocs) :
    Uint256 × Bool :=
  if !randomxInitialized && !initializeRandomX randomxInitialized allocs then (Uint256.zero, false)
  else (calculateHash header.serialize, true)

/-- The check of a header, which hashes it once to tell the genesis block and
once more for its proof of work. -/
def checkBlockHeaderRandomX (params : Params) (hashGenesisBlock : Uint256) (header : CBlockHeader)
    (fCheckPOW randomxInitialized : Bool) (allocs powAllocs : RandomXAllocs) : Except BlockReject Unit :=
  let hash := randomXHash calculateHash header randomxInitialized allocs
  let isGenesis := hash.1 = hashGenesisBlock
  if fCheckPOW ∧ ¬ isGenesis ∧
      checkProofOfWork (randomXHash calculateHash header hash.2 powAllocs).1 header.nBits.toNat params =
        false then
    throw ⟨.invalidHeader, "high-hash"⟩
  else pure ()

def NoTarget (params : Params) (nBits : Nat) : Prop :=
  (setCompact nBits).negative = true ∨ (setCompact nBits).target = 0 ∨
    (setCompact nBits).overflow = true ∨ params.powLimit < (setCompact nBits).target

variable {calculateHash}

theorem randomXHash_of_fails {header : CBlockHeader} {allocs : RandomXAllocs}
    (hfails : initializeRandomX false allocs = false) :
    randomXHash calculateHash header false allocs = (Uint256.zero, false) := by
  simp [randomXHash, hfails]

theorem checkProofOfWork_zero (nBits : Nat) (params : Params) :
    checkProofOfWork Uint256.zero nBits params = false ↔ NoTarget params nBits := by
  have hzero : LittleEndian.decode Uint256.zero.val = 0 := by decide
  by_cases h : NoTarget params nBits
  · have hnone : deriveTarget nBits params.powLimit = none := if_pos h
    simp [checkProofOfWork, hnone, h]
  · have hsome : deriveTarget nBits params.powLimit = some (setCompact nBits).target := if_neg h
    simp [checkProofOfWork, hsome, hzero, h]

/-- With RandomX not to be had, a header is rejected exactly where its nBits
stand for no target, and the genesis hash is not the zero hash itself. -/
theorem checkBlockHeader_randomX_fails_iff (params : Params) (hashGenesisBlock : Uint256)
    (header : CBlockHeader) {allocs powAllocs : RandomXAllocs}
    (hfails : initializeRandomX false allocs = false)
    (hpowFails : initializeRandomX false powAllocs = false) :
    checkBlockHeaderRandomX calculateHash params hashGenesisBlock header true false allocs powAllocs =
        .error ⟨.invalidHeader, "high-hash"⟩ ↔
      NoTarget params header.nBits.toNat ∧ hashGenesisBlock ≠ Uint256.zero := by
  have hhash : randomXHash calculateHash header false allocs = (Uint256.zero, false) :=
    randomXHash_of_fails hfails
  have hpowHash : randomXHash calculateHash header false powAllocs = (Uint256.zero, false) :=
    randomXHash_of_fails hpowFails
  by_cases hreject : NoTarget params header.nBits.toNat ∧ hashGenesisBlock ≠ Uint256.zero
  · refine iff_of_true (if_pos ⟨rfl, ?_, ?_⟩) hreject
    · rw [hhash]
      exact Ne.symm hreject.2
    · rw [hhash, hpowHash, checkProofOfWork_zero]
      exact hreject.1
  · refine iff_of_false (fun heq => ?_) hreject
    rw [checkBlockHeaderRandomX, hhash, hpowHash, if_neg] at heq
    · cases heq
    · rw [checkProofOfWork_zero]
      rintro ⟨-, hgenesis, htarget⟩
      exact hreject ⟨htarget, Ne.symm hgenesis⟩
end

def failedAllocs : RandomXAllocs := ⟨false, false, false⟩

def limitHeader : CBlockHeader := ⟨4, Uint256.zero, Uint256.zero, 1777337972, 0x1e0ffff0, 0⟩

def nonzeroHash : Uint256 := ⟨1 :: List.replicate 31 0, rfl⟩

theorem checkBlockHeader_randomX_fails_sample :
    checkBlockHeaderRandomX (fun _ => nonzeroHash) (consensusParams .main) nonzeroHash CBlockHeader.null true
        false failedAllocs failedAllocs = .error ⟨.invalidHeader, "high-hash"⟩ ↔
      NoTarget (consensusParams .main) 0 ∧ nonzeroHash ≠ Uint256.zero :=
  checkBlockHeader_randomX_fails_iff (consensusParams .main) nonzeroHash CBlockHeader.null rfl rfl

/-- Without RandomX the check accepts a header that no work was done for. -/
theorem checkBlockHeader_randomX_fails_open : initializeRandomX false failedAllocs = false ∧
      checkBlockHeaderRandomX (fun _ => nonzeroHash) (consensusParams .main) nonzeroHash limitHeader true
        false failedAllocs failedAllocs = .ok () := by
  refine ⟨rfl, ?_⟩
  decide +kernel

end Byze
