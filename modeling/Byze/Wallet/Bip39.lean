import Byze.Lib.BitGroups
import Byze.QuantumKeys
import Byze.Wallet.Wordlist

/-! The mnemonic phrase of a wallet: 256 bits of entropy and 8 bits of their
hash, in groups of 11 bits that each choose a word. -/

namespace Byze
open BitGroups

/-- The index that `std::lower_bound` gives, if the word is there. -/
def wordIndex (wordlist : Wordlist) (word : Bytes) : Option Nat :=
  let it := wordlist.words.findIdx fun w => !decide (w < word)
  if wordlist.words[it]? = some word then some it else none

def checksumByte (h : Hashes) (entropy : Bytes) : Nat := ((h.sha256 entropy).val.headD 0).toNat

def mnemonicBits (h : Hashes) (entropy : Bytes) : List Bool :=
  concat 8 (entropy.map UInt8.toNat) ++ BitGroups.bits 8 (checksumByte h entropy)

def encodeMnemonic (wordlist : Wordlist) (h : Hashes) (entropy : Uint256) : Bytes :=
  Words.join 0x20 ((groups 11 24 (mnemonicBits h entropy.val)).map fun index =>
    wordlist.words.getD index [])

def wordIndices (wordlist : Wordlist) : List Bytes → Except String (List Nat)
  | [] => pure []
  | word :: rest =>
    match wordIndex wordlist word with
    | none =>
      throw ("Unknown mnemonic word: " ++ String.ofList (word.map fun b => Char.ofNat b.toNat))
    | some idx => (wordIndices wordlist rest).map (idx :: ·)

/-- Bit `k` of the eight sets bit `7 - k` of the byte. -/
def entropyByte (bits : List Bool) : UInt8 :=
  (List.range 8).foldl
    (fun byte k => if bits.getD k false then byte ||| ((1 : UInt8) <<< (7 - k).toUInt8) else byte) 0

def entropyOf (bits : List Bool) : Bytes :=
  (List.range 32).map fun i => entropyByte ((bits.drop (8 * i)).take 8)

def decodeMnemonic (wordlist : Wordlist) (h : Hashes) (mnemonic : Bytes) : Except String Bytes := do
  let indices ← wordIndices wordlist (Words.words isSpace mnemonic)
  if indices.length ≠ 24 then throw "Mnemonic must contain exactly 24 words"
  let bits := concat 11 indices
  if bits.length ≠ 256 + 8 then throw "Invalid mnemonic length"
  let entropy := entropyOf bits
  if bits.drop 256 ≠ BitGroups.bits 8 (checksumByte h entropy) then
    throw "Mnemonic checksum invalid"
  pure entropy

section
variable {wordlist : Wordlist} {word : Bytes} {i : Nat}

theorem wordIndex_of_getElem? (hword : wordlist.words[i]? = some word) :
    wordIndex wordlist word = some i := by
  obtain ⟨hi, hget⟩ := List.getElem?_eq_some_iff.mp hword
  have hfind : wordlist.words.findIdx (fun w => !decide (w < word)) = i := by
    rw [List.findIdx_eq hi]
    refine ⟨by simp [hget], fun j hj => ?_⟩
    have hlt := List.pairwise_iff_getElem.mp wordlist.sorted j i (by omega) hi hj
    rw [hget] at hlt
    simpa using hlt
  simp [wordIndex, hfind, hword]

theorem wordIndex_eq_some : wordIndex wordlist word = some i ↔ wordlist.words[i]? = some word := by
  refine ⟨fun h => ?_, wordIndex_of_getElem?⟩
  obtain ⟨hword, hi⟩ := Option.ite_none_right_eq_some.mp h
  rwa [Option.some.inj hi] at hword

theorem wordIndices_eq_ok {ws : List Bytes} {indices : List Nat} :
    wordIndices wordlist ws = .ok indices ↔ ws.map some = indices.map fun i => wordlist.words[i]? := by
  induction ws generalizing indices with
  | nil => cases indices <;> simp [wordIndices, pure, Except.pure]
  | cons w ws ih =>
    cases hindex : wordIndex wordlist w with
    | none =>
      cases indices with
      | nil => simp [wordIndices, hindex, throw, throwThe, MonadExceptOf.throw]
      | cons j indices =>
        have hne : wordlist.words[j]? ≠ some w := fun hj => by
          simp [wordIndex_eq_some.mpr hj] at hindex
        simp [wordIndices, hindex, throw, throwThe, MonadExceptOf.throw, Ne.symm hne]
    | some j =>
      have hj := wordIndex_eq_some.mp hindex
      cases hrest : wordIndices wordlist ws with
      | error e =>
        cases indices with
        | nil => simp [wordIndices, hindex, hrest, Except.map]
        | cons i indices =>
          have htail : ¬ ws.map some = indices.map fun i => wordlist.words[i]? := fun heq => by
            simp [ih.mpr heq] at hrest
          simp [wordIndices, hindex, hrest, Except.map, htail]
      | ok tail =>
        cases indices with
        | nil => simp [wordIndices, hindex, hrest, Except.map]
        | cons i indices =>
          have htail : tail = indices ↔ ws.map some = indices.map fun i => wordlist.words[i]? := by
            simp [← ih, hrest]
          have hhead : j = i ↔ some w = wordlist.words[i]? := by
            refine ⟨fun heq => heq ▸ hj.symm, fun hi => ?_⟩
            exact Option.some.inj (hindex.symm.trans (wordIndex_eq_some.mpr hi.symm))
          simp [wordIndices, hindex, hrest, Except.map, htail, hhead]
end

section
variable {wordlist : Wordlist} {h : Hashes}

theorem length_mnemonicBits (entropy : Uint256) : (mnemonicBits h entropy.val).length = 11 * 24 := by
  simp [mnemonicBits, concat_length, entropy.property, bits_length]

theorem map_getD_words {indices : List Nat} (hlt : ∀ i ∈ indices, i < 2 ^ 11) :
    (indices.map fun i => wordlist.words.getD i []).map some = indices.map fun i => wordlist.words[i]? := by
  rw [List.map_map]
  refine List.map_congr_left fun i hi => ?_
  have hbound : i < wordlist.words.length := by
    rw [wordlist.length_eq]
    exact hlt i hi
  simp [hbound]

theorem getD_mem_words {i : Nat} (hlt : i < 2 ^ 11) : wordlist.words.getD i [] ∈ wordlist.words := by
  have hbound : i < wordlist.words.length := by
    rw [wordlist.length_eq]
    exact hlt
  rw [List.getD_eq_getElem _ _ hbound]
  exact List.getElem_mem hbound

theorem plain_getD_words {indices : List Nat} (hlt : ∀ i ∈ indices, i < 2 ^ 11) :
    ∀ w ∈ indices.map fun i => wordlist.words.getD i [], Words.Plain isSpace w := by
  intro w hw
  obtain ⟨i, hi, rfl⟩ := List.mem_map.mp hw
  exact wordlist.plain _ (getD_mem_words (hlt i hi))

theorem entropyByte_eq (bits : List Bool) (hlength : bits.length = 8) :
    entropyByte bits = (ofBits bits).toUInt8 := by
  have hall : ∀ a b c d e f g i : Bool, entropyByte [a, b, c, d, e, f, g, i] =
      (ofBits [a, b, c, d, e, f, g, i]).toUInt8 := by
    decide +kernel
  match bits, hlength with
  | [a, b, c, d, e, f, g, i], _ => exact hall a b c d e f g i

theorem entropyOf_eq {bits : List Bool} (hlength : 256 ≤ bits.length) :
    entropyOf bits = (groups 8 32 bits).map Nat.toUInt8 := by
  rw [groups_eq_map_range, List.map_map]
  refine List.map_congr_left fun i hi => ?_
  have hi := List.mem_range.mp hi
  exact entropyByte_eq _ (by rw [List.length_take, List.length_drop]; omega)

theorem length_entropyOf (bits : List Bool) : (entropyOf bits).length = 32 := by
  simp [entropyOf]

theorem concat_entropyOf {bits : List Bool} (hlength : 256 ≤ bits.length) :
    concat 8 ((entropyOf bits).map UInt8.toNat) = bits.take 256 := by
  have hsame : ((groups 8 32 bits).map Nat.toUInt8).map UInt8.toNat =
      groups 8 32 bits := by
    rw [List.map_map]
    conv_rhs => rw [← List.map_id (groups 8 32 bits)]
    refine List.map_congr_left fun d hd => ?_
    exact Nat.mod_eq_of_lt (groups_lt hlength d hd)
  rw [entropyOf_eq hlength, hsame]
  exact concat_groups hlength

theorem entropyOf_concat (entropy : Uint256) (rest : List Bool) :
    entropyOf (concat 8 (entropy.val.map UInt8.toNat) ++ rest) = entropy.val := by
  have hlength : (concat 8 (entropy.val.map UInt8.toNat)).length = 256 := by
    simp [concat_length, entropy.property]
  have hbits := @concat_entropyOf (concat 8 (entropy.val.map UInt8.toNat) ++ rest)
    (by rw [List.length_append]; omega)
  rw [List.take_left' hlength] at hbits
  have hbyte : ∀ b : Bytes, ∀ d ∈ b.map UInt8.toNat, d < 2 ^ 8 := by
    intro b d hd
    obtain ⟨c, -, rfl⟩ := List.mem_map.mp hd
    exact c.toNat_lt
  have hsame := concat_injective (by omega) (hbyte _) (hbyte _) hbits
  exact List.map_injective_iff.mpr (fun _ _ => UInt8.toNat_inj.mp) hsame

variable {mnemonic entropy : Bytes}

theorem decodeMnemonic_eq_ok : decodeMnemonic wordlist h mnemonic = .ok entropy ↔
      ∃ indices, wordIndices wordlist (Words.words isSpace mnemonic) = .ok indices ∧
        indices.length = 24 ∧ entropyOf (concat 11 indices) = entropy ∧
        (concat 11 indices).drop 256 = BitGroups.bits 8 (checksumByte h entropy) := by
  rw [decodeMnemonic, ExceptEq.bind_eq_ok_iff]
  refine exists_congr fun indices => and_congr_right fun _ => ?_
  by_cases hlength : indices.length = 24
  · by_cases hsum : (concat 11 indices).drop 256 =
        BitGroups.bits 8 (checksumByte h (entropyOf (concat 11 indices)))
    · have hbits : (concat 11 indices).length = 256 + 8 := by
        simp [hlength]
      rw [if_neg (not_not.mpr hlength), if_neg (not_not.mpr hbits), if_neg (not_not.mpr hsum)]
      refine ⟨fun hok => ?_, fun h => congrArg Except.ok h.2.1⟩
      obtain rfl := Except.ok.inj hok
      exact ⟨hlength, rfl, hsum⟩
    · simp only [hlength, hsum, ne_eq, not_false_eq_true, not_true_eq_false, if_true, if_false,
        concat_length, ExceptEq.throw_eq_error, ExceptEq.error_bind, reduceCtorEq,
        true_and, false_iff]
      rintro ⟨rfl, hsame⟩
      exact hsum hsame
  · simp [hlength]

theorem decodeMnemonic_encodeMnemonic (entropy : Uint256) :
    decodeMnemonic wordlist h (encodeMnemonic wordlist h entropy) = .ok entropy.val := by
  have hlength := length_mnemonicBits (h := h) entropy
  have hlt := groups_lt hlength.ge
  have hbits : concat 11 (groups 11 24 (mnemonicBits h entropy.val)) =
      mnemonicBits h entropy.val := by
    simp [concat_groups hlength.ge, ← hlength]
  have hentropy : (concat 8 (entropy.val.map UInt8.toNat)).length = 256 := by
    simp [concat_length, entropy.property]
  rw [decodeMnemonic_eq_ok]
  refine ⟨groups 11 24 (mnemonicBits h entropy.val), ?_, groups_length _ _ _, ?_, ?_⟩
  · rw [encodeMnemonic, Words.words_join rfl (plain_getD_words hlt), wordIndices_eq_ok]
    exact map_getD_words hlt
  · rw [hbits]
    exact entropyOf_concat entropy _
  · rw [hbits, mnemonicBits, List.drop_left' hentropy]

theorem encodeMnemonic_of_decodeMnemonic (hok : decodeMnemonic wordlist h mnemonic = .ok entropy) :
    ∃ e : Uint256, e.val = entropy ∧ (Words.words isSpace mnemonic).length = 24 ∧
      (∀ w ∈ Words.words isSpace mnemonic, w ∈ wordlist.words) ∧
      encodeMnemonic wordlist h e = Words.join 0x20 (Words.words isSpace mnemonic) := by
  obtain ⟨indices, hindices, hcount, rfl, hsum⟩ := decodeMnemonic_eq_ok.mp hok
  rw [wordIndices_eq_ok] at hindices
  have hlength : 256 ≤ (concat 11 indices).length := by
    rw [concat_length]
    omega
  have hlt : ∀ i ∈ indices, i < 2 ^ 11 := by
    intro i hi
    have hmem : wordlist.words[i]? ∈ (Words.words isSpace mnemonic).map some := by
      rw [hindices]
      exact List.mem_map_of_mem hi
    obtain ⟨w, -, hw⟩ := List.mem_map.mp hmem
    have hbound := (List.getElem?_eq_some_iff.mp hw.symm).1
    rw [wordlist.length_eq] at hbound
    exact hbound
  have hbits : mnemonicBits h (entropyOf (concat 11 indices)) =
      concat 11 indices := by
    simp [mnemonicBits, concat_entropyOf hlength, ← hsum]
  have hwords : indices.map (fun i => wordlist.words.getD i []) = Words.words isSpace mnemonic := by
    refine List.map_injective_iff.mpr (Option.some_injective _) ?_
    rw [map_getD_words hlt, hindices]
  refine ⟨⟨_, length_entropyOf _⟩, rfl, ?_, ?_, ?_⟩
  · simp [← hwords, hcount]
  · intro w hw
    rw [← hwords] at hw
    obtain ⟨i, hi, rfl⟩ := List.mem_map.mp hw
    exact getD_mem_words (hlt i hi)
  · have hgroups := groups_concat (by omega) hlt
    rw [hcount] at hgroups
    simp only [encodeMnemonic, hbits, hgroups, hwords]

/-- Every entropy is read back from its phrase, and an accepted phrase has 24
words of the list and is that of the entropy up to white space. -/
theorem mnemonic_codec (wordlist : Wordlist) (h : Hashes) : (∀ entropy : Uint256,
      decodeMnemonic wordlist h (encodeMnemonic wordlist h entropy) = .ok entropy.val) ∧
    ∀ mnemonic entropy, decodeMnemonic wordlist h mnemonic = .ok entropy →
      ∃ e : Uint256, e.val = entropy ∧ (Words.words isSpace mnemonic).length = 24 ∧
        (∀ w ∈ Words.words isSpace mnemonic, w ∈ wordlist.words) ∧
        encodeMnemonic wordlist h e = Words.join 0x20 (Words.words isSpace mnemonic) :=
  ⟨decodeMnemonic_encodeMnemonic, fun _ _ => encodeMnemonic_of_decodeMnemonic⟩

theorem mnemonic_codec_english : decodeMnemonic englishWordlist byteSumHashes
      (encodeMnemonic englishWordlist byteSumHashes Uint256.zero) = .ok Uint256.zero.val :=
  (mnemonic_codec englishWordlist byteSumHashes).1 Uint256.zero
end

end Byze
