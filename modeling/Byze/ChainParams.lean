import Byze.NextWork

/-! The networks, with the proof-of-work parameters, the genesis block each of
them starts from and the subsidy of its blocks. -/

namespace Byze

inductive ChainType where
  | main
  | testnet
  | testnet4
  | stagenet
  | signet
  | regtest (enforceBIP94 : Bool)
  deriving DecidableEq, Repr

def softLaunchHeight : Nat := 10000

def twoWeekParams (powLimit : Nat) (fPowAllowMinDifficultyBlocks enforceBIP94 : Bool)
    (h : powLimit < 2 ^ 256) : Params :=
  { powLimit := powLimit
    nPowTargetTimespan := 14 * 24 * 60 * 60
    nPowTargetSpacing := 10 * 60
    fPowAllowMinDifficultyBlocks := fPowAllowMinDifficultyBlocks
    enforceBIP94 := enforceBIP94
    fPowNoRetargeting := false
    fSoftLaunch := false
    nSoftLaunchHeight := 0
    powLimit_lt := h
    spacing_pos := by norm_num
    spacing_le := by norm_num
    timespan_lt := by norm_num }

def consensusParams : ChainType → Params
  | .main =>
    { powLimit := 0x00000ffff0000000000000000000000000000000000000000000000000000000
      nPowTargetTimespan := 60 * 60
      nPowTargetSpacing := 10 * 60
      fPowAllowMinDifficultyBlocks := false
      enforceBIP94 := false
      fPowNoRetargeting := false
      fSoftLaunch := true
      nSoftLaunchHeight := softLaunchHeight
      powLimit_lt := by norm_num
      spacing_pos := by norm_num
      spacing_le := by norm_num
      timespan_lt := by norm_num }
  | .testnet => twoWeekParams
      0x00000000ffffffffffffffffffffffffffffffffffffffffffffffffffffffff true false (by norm_num)
  | .testnet4 => twoWeekParams
      0x00000000ffffffffffffffffffffffffffffffffffffffffffffffffffffffff true true (by norm_num)
  | .stagenet => twoWeekParams
      0x00000000ffffffffffffffffffffffffffffffffffffffffffffffffffffffff false false (by norm_num)
  | .signet => twoWeekParams
      0x00000377ae000000000000000000000000000000000000000000000000000000 false false (by norm_num)
  | .regtest enforceBIP94 =>
    { powLimit := 0x7fffffffffffffffffffffffffffffffffffffffffffffffffffffffffffffff
      nPowTargetTimespan := 24 * 60 * 60
      nPowTargetSpacing := 10 * 60
      fPowAllowMinDifficultyBlocks := true
      enforceBIP94 := enforceBIP94
      fPowNoRetargeting := true
      fSoftLaunch := false
      nSoftLaunchHeight := 0
      powLimit_lt := by norm_num
      spacing_pos := by norm_num
      spacing_le := by norm_num
      timespan_lt := by norm_num }

def genesisTime : ChainType → Nat
  | .main => 1777337372
  | .testnet => 1777342551
  | .testnet4 => 1714777860
  | .stagenet => 1735696800
  | .signet => 1777345108
  | .regtest _ => 1777343105

def genesisBits : ChainType → Nat
  | .testnet4 => 0x1e0fffff
  | _ => 0x1e0ffff0

def subsidyHalvingInterval : ChainType → Nat
  | .regtest _ => 150
  | _ => 210000

def coin : Nat := 100000000

def getBlockSubsidy (chain : ChainType) (nHeight : Nat) : Int :=
  let halvings := nHeight / subsidyHalvingInterval chain
  if halvings ≥ 64 then 0 else ((50 * coin) >>> halvings : Nat)

end Byze
