import Byze.Base58
import Byze.Bech32Locate
import Byze.ChainParams
import Byze.TxCheck

/-! Addresses: the string of a destination, and the destination a string stands
for. Only witness version 1 programs of 32 bytes can be read back. -/

namespace Byze
open BitGroups

inductive CTxDestination where
  | noDestination (script : Bytes)
  | pubKeyDestination (pubkey : Bytes)
  | pkHash (hash : { b : Bytes // b.length = 20 })
  | scriptHash (hash : { b : Bytes // b.length = 20 })
  | witnessV0ScriptHash (hash : Uint256)
  | witnessV0KeyHash (hash : { b : Bytes // b.length = 20 })
  | witnessV1Taproot (program : Uint256)
  | payToAnchor
  | witnessUnknown (version : Nat) (program : Bytes)

def anchorBytes : Bytes := [0x4e, 0x73]

namespace ChainType

def bech32HRP : ChainType → String
  | main => "byz"
  | testnet => "tbyz"
  | testnet4 => "tb"
  | stagenet => "shrm"
  | signet => "sbyz"
  | regtest _ => "bcrt"

def pubkeyAddress : ChainType → UInt8
  | main => 40
  | testnet => 111
  | testnet4 => 111
  | stagenet => 40
  | signet => 111
  | regtest _ => 111

def scriptAddress : ChainType → UInt8
  | main => 5
  | testnet => 196
  | testnet4 => 196
  | stagenet => 5
  | signet => 196
  | regtest _ => 196

def hrpBytes (chain : ChainType) : Bytes := asciiBytes chain.bech32HRP

end ChainType

def programValues (program : Bytes) : List Nat := (convertBits 8 5 true (program.map UInt8.toNat)).1

def encodeWitness (chain : ChainType) (encoding : Encoding) (version : Nat) (program : Bytes) : Option Bytes :=
  encodeBech32 encoding chain.hrpBytes (version :: programValues program)

def encodeWitnessUnknown (chain : ChainType) (version : Nat) (program : Bytes) : Option Bytes :=
  if version < 1 ∨ 16 < version ∨ program.length < 2 ∨ 40 < program.length then some []
  else encodeWitness chain .bech32m version program

def encodeBase58Check (h : Hashes) (input : Bytes) : Option Bytes :=
  Base58.encodeBase58 (input ++ (hash256 h input).val.take 4)

def encodeDestination (h : Hashes) (chain : ChainType) : CTxDestination → Option Bytes
  | .pkHash hash => encodeBase58Check h (chain.pubkeyAddress :: hash.val)
  | .scriptHash hash => encodeBase58Check h (chain.scriptAddress :: hash.val)
  | .witnessV0KeyHash hash => encodeWitness chain .bech32 0 hash.val
  | .witnessV0ScriptHash hash => encodeWitness chain .bech32 0 hash.val
  | .witnessV1Taproot program => encodeWitness chain .bech32m 1 program.val
  | .payToAnchor => encodeWitnessUnknown chain 1 anchorBytes
  | .witnessUnknown version program => encodeWitnessUnknown chain version program
  | .noDestination _ => some []
  | .pubKeyDestination _ => some []

structure DecodedDestination where
  dest : CTxDestination
  errorStr : String := ""
  errorLocations : List Nat := []

def noDestinationWith (errorStr : String) : DecodedDestination := { dest := .noDestination [], errorStr }

def witnessV1TaprootSize : Nat := 32

def decodeProgram (version : Nat) (values : List Nat) : DecodedDestination :=
  let converted := convertBits 5 8 false values
  if converted.2 then
    let data : Bytes := converted.1.map UInt8.ofNat
    if h : version = 1 ∧ data.length = witnessV1TaprootSize then { dest := .witnessV1Taproot ⟨data, h.2⟩ }
    else if version ≠ 1 then noDestinationWith "Only witness v1 addresses are supported"
    else noDestinationWith ("Invalid witness v1 address program size (" ++ toString data.length ++ " " ++
      (if data.length = 1 then "byte" else "bytes") ++ "), expected 32 bytes")
  else noDestinationWith "Invalid padding in Bech32 data section"

def decodeDestination (chain : ChainType) (str : Bytes) : DecodedDestination :=
  if (str.take chain.hrpBytes.length).map lowerCase ≠ chain.hrpBytes then
    noDestinationWith "Only bech32m witness v1 addresses are supported"
  else
    let dec := decodeBech32 str
    if dec.encoding = .bech32 ∨ dec.encoding = .bech32m then
      match dec.data with
      | [] => noDestinationWith "Empty Bech32 data section"
      | version :: values =>
        if dec.hrp ≠ chain.hrpBytes then
          noDestinationWith ("Invalid or unsupported prefix for Segwit (Bech32) address (expected " ++
            chain.bech32HRP ++ ", got " ++ String.ofList (dec.hrp.map fun c => Char.ofNat c.toNat) ++ ").")
        else if version = 0 ∧ dec.encoding ≠ .bech32 then
          noDestinationWith "Version 0 witness address must use Bech32 checksum"
        else if version ≠ 0 ∧ dec.encoding ≠ .bech32m then
          noDestinationWith "Version 1+ witness address must use Bech32m checksum"
        else decodeProgram version values
    else
      let res := locateErrors str
      { dest := .noDestination [], errorStr := res.1, errorLocations := res.2 }

theorem byteValues_lt (program : Bytes) : ∀ v ∈ program.map UInt8.toNat, v < 2 ^ 8 := by
  intro v hv
  obtain ⟨c, -, rfl⟩ := List.mem_map.mp hv
  exact c.toNat_lt

theorem programValues_lt (program : Bytes) : ∀ v ∈ programValues program, v < 32 :=
  (convertBits_pad (by norm_num) (byteValues_lt program)).1

theorem programValues_length (program : Bytes) : 8 * program.length ≤ 5 * (programValues program).length ∧
      5 * (programValues program).length < 8 * program.length + 5 := by
  obtain ⟨-, k, hk, hconcat⟩ := convertBits_pad (show 0 < 5 by norm_num) (byteValues_lt program)
  have hlength := congrArg List.length hconcat
  simp only [concat_length, List.length_append, List.length_map, List.length_replicate] at hlength
  simp only [programValues]
  omega

variable {values : List Nat} {chain : ChainType}

theorem map_toNat_ofNat (h : ∀ v ∈ values, v < 2 ^ 8) :
    (values.map UInt8.ofNat).map UInt8.toNat = values := by
  rw [List.map_map]
  conv_rhs => rw [← List.map_id values]
  refine List.map_congr_left fun v hv => ?_
  simpa using Nat.mod_eq_of_lt (h v hv)

theorem map_ofNat_toNat (program : Bytes) : (program.map UInt8.toNat).map UInt8.ofNat = program := by
  simp [Function.comp_def]

theorem convertBits_program_iff {program : Bytes} (hvalues : ∀ v ∈ values, v < 32) :
    (convertBits 5 8 false values).2 = true ∧ (convertBits 5 8 false values).1.map UInt8.ofNat = program ↔
      values = programValues program := by
  rw [programValues, ← convertBits_unpad_iff (by norm_num) (by norm_num) (byteValues_lt program) hvalues]
  have hgroups : ∀ v ∈ values, v < 2 ^ 5 := hvalues
  obtain ⟨-, -, -, -, hlt, -, -⟩ := convertBits_noPad (show 0 < 8 by norm_num) hgroups
  constructor
  · rintro ⟨hok, rfl⟩
    rw [map_toNat_ofNat hlt]
    exact Prod.ext rfl hok
  · intro h
    rw [h]
    exact ⟨rfl, map_ofNat_toNat program⟩

variable {str : Bytes} {program : Uint256} {version : Nat}

theorem decodeProgram_taproot_iff (hvalues : ∀ v ∈ values, v < 32) :
    (decodeProgram version values).dest = .witnessV1Taproot program ↔
      version = 1 ∧ values = programValues program.val := by
  rw [← convertBits_program_iff hvalues]
  by_cases hok : (convertBits 5 8 false values).2 = true
  · simp only [decodeProgram, hok, if_true, true_and]
    by_cases h : version = 1 ∧ ((convertBits 5 8 false values).1.map UInt8.ofNat).length = witnessV1TaprootSize
    · rw [dif_pos h]
      constructor
      · intro hdest
        cases hdest
        exact ⟨h.1, rfl⟩
      · rintro ⟨-, hdata⟩
        exact congrArg CTxDestination.witnessV1Taproot (Subtype.ext hdata)
    · rw [dif_neg h]
      constructor
      · intro hdest
        split at hdest <;> cases hdest
      · rintro ⟨hversion, hdata⟩
        exact absurd ⟨hversion, hdata ▸ program.2⟩ h
  · simp [decodeProgram, hok, noDestinationWith]

theorem decodeProgram_kinds (version : Nat) (values : List Nat) :
    (decodeProgram version values).dest = .noDestination [] ∨
      ∃ program, (decodeProgram version values).dest = .witnessV1Taproot program := by
  unfold decodeProgram
  dsimp only
  split
  · split
    · exact Or.inr ⟨_, rfl⟩
    · split
      · exact Or.inl rfl
      · exact Or.inl rfl
  · exact Or.inl rfl

/-- What a string has to decode to before its program is looked at. -/
def ReadsWitness (chain : ChainType) (str : Bytes) (version : Nat) (values : List Nat) : Prop :=
  (str.take chain.hrpBytes.length).map lowerCase = chain.hrpBytes ∧
    decodeBech32 str = ⟨if version = 0 then .bech32 else .bech32m, chain.hrpBytes, version :: values⟩

theorem decodeDestination_cases (chain : ChainType) (str : Bytes) :
    (decodeDestination chain str).dest = .noDestination [] ∨
      ∃ version values, ReadsWitness chain str version values ∧
        decodeDestination chain str = decodeProgram version values := by
  unfold decodeDestination
  split
  · exact Or.inl rfl
  rename_i hstart
  dsimp only
  split
  · split
    · exact Or.inl rfl
    rename_i version values hdata
    split
    · exact Or.inl rfl
    rename_i hhrp
    split
    · exact Or.inl rfl
    split
    · exact Or.inl rfl
    refine Or.inr ⟨version, values, ⟨not_not.mp hstart, ?_⟩, rfl⟩
    have hkind : (decodeBech32 str).encoding = if version = 0 then .bech32 else .bech32m := by
      split <;> simp_all
    rw [← hkind, ← not_not.mp hhrp, ← hdata]
  · exact Or.inl rfl

theorem ReadsWitness.decodeDestination (h : ReadsWitness chain str version values) :
    decodeDestination chain str = decodeProgram version values := by
  obtain ⟨hstart, hdecode⟩ := h
  simp [Byze.decodeDestination, hstart, hdecode]

theorem ReadsWitness.values_lt (h : ReadsWitness chain str version values) : ∀ v ∈ values, v < 32 := by
  have hvalid : (decodeBech32 str).encoding ≠ .invalid := by
    rw [h.2]
    split <;> simp
  have hdata := (encode_decodeBech32 hvalid).2
  rw [h.2] at hdata
  exact fun v hv => hdata v (List.mem_cons_of_mem version hv)

theorem decodeDestination_taproot_iff :
    (decodeDestination chain str).dest = .witnessV1Taproot program ↔
      ReadsWitness chain str 1 (programValues program.val) := by
  constructor
  · intro h
    rcases decodeDestination_cases chain str with hnone | ⟨version, values, hreads, hdecode⟩
    · rw [hnone] at h
      cases h
    · rw [hdecode] at h
      obtain ⟨rfl, rfl⟩ := (decodeProgram_taproot_iff hreads.values_lt).mp h
      exact hreads
  · intro h
    rw [h.decodeDestination]
    exact (decodeProgram_taproot_iff h.values_lt).mpr ⟨rfl, rfl⟩

theorem ReadsWitness.lowerCase_eq (h : ReadsWitness chain str 1 (programValues program.val))
    (hashes : Hashes) : encodeDestination hashes chain (.witnessV1Taproot program) = some (str.map lowerCase) := by
  have hvalid : (decodeBech32 str).encoding ≠ .invalid := by
    rw [h.2]
    simp
  have hencode := (encode_decodeBech32 hvalid).1
  rw [h.2] at hencode
  exact hencode

theorem ChainType.hrpBytes_plain (chain : ChainType) :
    chain.hrpBytes ≠ [] ∧ chain.hrpBytes.length ≤ 4 ∧ ∀ c ∈ chain.hrpBytes, PlainCharacter c := by
  refine ⟨?_, ?_, List.forall_iff_forall_mem.mp ?_⟩
  · cases chain <;> decide +revert
  · cases chain <;> decide +revert
  · unfold PlainCharacter
    cases chain <;> decide +revert

theorem encodeDestination_taproot (h : Hashes) (chain : ChainType) (program : Uint256) :
    ∃ str, encodeDestination h chain (.witnessV1Taproot program) = some str ∧
      ReadsWitness chain str 1 (programValues program.val) := by
  obtain ⟨hne, hlength, hplain⟩ := chain.hrpBytes_plain
  have hencode := encodeBech32_eq (1 :: programValues program.val) (show Encoding.bech32m ≠ .invalid by decide) hplain
  refine ⟨_, hencode, ?_, ?_⟩
  · rw [List.take_left]
    exact map_lowerCase_of_plain hplain
  · refine decode_encodeBech32 hencode hne hplain ?_ ?_
    · intro v hv
      rcases List.mem_cons.mp hv with rfl | hv
      · norm_num
      · exact programValues_lt program.val v hv
    · have hvalues := (programValues_length program.val).2
      rw [program.2] at hvalues
      rw [List.length_cons]
      omega

/-- Addresses are read back, stand only for version 1 programs, and are spelled
in one way up to letter case. -/
theorem address_codec (h : Hashes) (chain : ChainType) :
    (∀ program : Uint256, ∃ str, encodeDestination h chain (.witnessV1Taproot program) = some str ∧
      (decodeDestination chain str).dest = .witnessV1Taproot program) ∧
    (∀ str, (decodeDestination chain str).dest = .noDestination [] ∨
      ∃ program, (decodeDestination chain str).dest = .witnessV1Taproot program) ∧
    (∀ str str' program, (decodeDestination chain str).dest = .witnessV1Taproot program →
      (decodeDestination chain str').dest = .witnessV1Taproot program →
      str.map lowerCase = str'.map lowerCase) := by
  refine ⟨?_, ?_, ?_⟩
  · intro program
    obtain ⟨str, hencode, hreads⟩ := encodeDestination_taproot h chain program
    exact ⟨str, hencode, decodeDestination_taproot_iff.mpr hreads⟩
  · intro str
    rcases decodeDestination_cases chain str with hnone | ⟨version, values, -, hdecode⟩
    · exact Or.inl hnone
    · rw [hdecode]
      exact decodeProgram_kinds version values
  · intro str str' program hdest hdest'
    have hlower := (decodeDestination_taproot_iff.mp hdest).lowerCase_eq h
    have hlower' := (decodeDestination_taproot_iff.mp hdest').lowerCase_eq h
    exact Option.some.inj (hlower.symm.trans hlower')

end Byze
