import Byze.Bech32Errors

/-! Strings with wrong characters: one or two of them are located, and a string can be
repaired at the places that are reported. -/

namespace Byze

/-- No letters of both cases. -/
def OneCase (str : Bytes) : Prop := (∀ c ∈ str, isUpperCase c = false) ∨ ∀ c ∈ str, isLowerCase c = false

def Printable (c : UInt8) : Prop := 33 ≤ c.toNat ∧ c.toNat ≤ 126

theorem not_upper_of_lower {c : UInt8} (h : isLowerCase c = true) : isUpperCase c = false := by
  simp only [isLowerCase, isUpperCase, decide_eq_true_eq, decide_eq_false_iff_not] at h ⊢
  omega

theorem printable_of_letter {c : UInt8} (h : isLowerCase c = true ∨ isUpperCase c = true) : Printable c := by
  simp only [isLowerCase, isUpperCase, decide_eq_true_eq] at h
  unfold Printable
  omega

theorem checkCharacters_eq_nil_iff (i : Nat) {lower upper : Bool} (str : Bytes) (h : ¬(lower = true ∧ upper = true)) :
    checkCharacters i lower upper str = [] ↔ (∀ c ∈ str, Printable c) ∧
      ((upper = false ∧ ∀ c ∈ str, isUpperCase c = false) ∨ (lower = false ∧ ∀ c ∈ str, isLowerCase c = false)) := by
  induction str generalizing i lower upper with
  | nil =>
    cases lower <;> cases upper <;> simp [checkCharacters] at h ⊢
  | cons c str ih =>
    by_cases hl : isLowerCase c = true
    · have hu := not_upper_of_lower hl
      have hp := printable_of_letter (Or.inl hl)
      cases upper with
      | true => simp [checkCharacters, hl]
      | false => simp [checkCharacters, hl, hu, hp, ih (i + 1) (by simp : ¬(true = true ∧ false = true))]
    · by_cases hu : isUpperCase c = true
      · have hp := printable_of_letter (Or.inr hu)
        cases lower with
        | true => simp [checkCharacters, hl, hu]
        | false => simp [checkCharacters, hl, hu, hp, ih (i + 1) (by simp : ¬(false = true ∧ true = true))]
      · have hp : Printable c ↔ ¬(c.toNat < 33 ∨ 126 < c.toNat) := by
          unfold Printable
          omega
        by_cases hrange : c.toNat < 33 ∨ 126 < c.toNat
        · simp [checkCharacters, hl, hu, hrange, hp]
        · simp [checkCharacters, hl, hu, hrange, hp, ih (i + 1) h]

theorem checkCharacters_iff (str : Bytes) :
    checkCharacters 0 false false str = [] ↔ (∀ c ∈ str, Printable c) ∧ OneCase str := by
  rw [checkCharacters_eq_nil_iff 0 str (by simp)]
  simp [OneCase]

theorem charset_printable {c : UInt8} {v : Nat} (h : charsetRevAt c = some v) : Printable c ∧ c ≠ separator := by
  have htable : ∀ c, ∀ v ∈ charsetRevAt c, (33 ≤ c.toNat ∧ c.toNat ≤ 126) ∧ c ≠ separator :=
    forall_uint8 (by decide +kernel)
  exact htable c v h

theorem Reads.exists_value {str : Bytes} {values : List Nat} (h : Reads str values) :
    ∀ c ∈ str, ∃ v, charsetRevAt c = some v := by
  induction h with
  | nil => simp
  | cons hc _ ih => exact List.forall_mem_cons.mpr ⟨⟨_, hc⟩, ih⟩

section
variable {str tail : Bytes} {pos : Nat} {values values' : List Nat}

/-- Other data characters, in the same case. -/
theorem Parses.with_tail (h : Parses str pos values) (hlen : tail.length = str.length - (pos + 1))
    (hread : Reads tail values') (hcase : OneCase (str.take (pos + 1) ++ tail)) :
    Parses (str.take (pos + 1) ++ tail) pos values' := by
  have hroom := h.room
  have hlength : (str.take (pos + 1) ++ tail).length = str.length := by
    rw [List.length_append, List.length_take]
    omega
  have hsep : separator ∉ tail := by
    intro hmem
    obtain ⟨v, hv⟩ := hread.exists_value _ hmem
    exact (charset_printable hv).2 rfl
  have hhead : str.take (pos + 1) = str.take pos ++ [separator] := by
    have hsplit := rfind_eq_some h.found
    have htake : (str.take pos).length = pos := by
      rw [List.length_take]
      omega
    conv_lhs => rw [hsplit]
    rw [← List.singleton_append, ← List.append_assoc, List.take_append_of_le_length (by simp [htake]),
      List.take_of_length_le (by simp)]
  refine ⟨?_, ?_, ?_, h.nonempty, ?_, ?_⟩
  · rw [checkCharacters_iff]
    refine ⟨?_, hcase⟩
    intro c hc
    rcases List.mem_append.mp hc with hc | hc
    · exact ((checkCharacters_iff str).mp h.characters).1 c (List.mem_of_mem_take hc)
    · obtain ⟨v, hv⟩ := hread.exists_value c hc
      exact (charset_printable hv).1
  · rw [hlength]
    exact h.limit
  · have hfound := rfind_append (str.take pos) hsep
    rw [hhead, List.append_assoc, List.singleton_append, hfound, List.length_take]
    congr 1
    omega
  · rw [hlength]
    exact hroom
  · have hdrop : (str.take (pos + 1) ++ tail).drop (pos + 1) = tail := by
      apply List.drop_left'
      rw [List.length_take]
      omega
    rwa [hdrop]

theorem Parses.take_tail (h : Parses str pos values) (tail : Bytes) :
    (str.take (pos + 1) ++ tail).take pos = str.take pos := by
  have hroom := h.room
  rw [List.take_append_of_le_length, List.take_take, Nat.min_eq_left (Nat.le_succ pos)]
  rw [List.length_take]
  omega
end

section
variable {str : Bytes} {pos size : Nat} {hrp : Bytes} {values : List Nat}

def residueOf (hrp : Bytes) (values : List Nat) (encoding : Encoding) : Nat :=
  polyMod (preparePolynomialCoefficients hrp values) ^^^ encodingConstant encoding

def locations (size : Nat) (hrp : Bytes) (values : List Nat) (encoding : Encoding) : List Nat :=
  (errorPositions values.length (residueOf hrp values encoding)).map fun p => size - p - 1

theorem residueOf_lt (hrp : Bytes) (hvalues : ∀ v ∈ values, v < 32) (encoding : Encoding) :
    residueOf hrp values encoding < 2 ^ 30 :=
  Nat.xor_lt_two_pow (polyMod_lt (preparePolynomialCoefficients_lt hrp hvalues)) (encodingConstant_lt encoding)

theorem locateChecksum_cons (encoding : Encoding) (encodings : List Encoding) (locs : List Nat)
    (errorEncoding : Option Encoding) :
    locateChecksum size hrp values (encoding :: encodings) locs errorEncoding =
      if residueOf hrp values encoding = 0 then ("", [])
      else if locs = [] ∨ (locations size hrp values encoding ≠ [] ∧
          (locations size hrp values encoding).length < locs.length) then
        locateChecksum size hrp values encodings (locations size hrp values encoding)
          (if locations size hrp values encoding ≠ [] then some encoding else errorEncoding)
      else locateChecksum size hrp values encodings locs errorEncoding := rfl

theorem locateChecksum_sound (encodings : List Encoding) (locs : List Nat) (errorEncoding : Option Encoding)
    (hne : (locateChecksum size hrp values encodings locs errorEncoding).2 ≠ []) :
    (locateChecksum size hrp values encodings locs errorEncoding).2 = locs ∨ ∃ encoding ∈ encodings,
        (locateChecksum size hrp values encodings locs errorEncoding).2 = locations size hrp values encoding := by
  induction encodings generalizing locs errorEncoding with
  | nil => exact Or.inl rfl
  | cons encoding encodings ih =>
    rw [locateChecksum_cons] at hne ⊢
    by_cases hzero : residueOf hrp values encoding = 0
    · rw [if_pos hzero] at hne
      exact absurd rfl hne
    · rw [if_neg hzero] at hne ⊢
      split at hne
      · rename_i hbetter
        rw [if_pos hbetter]
        rcases ih _ _ hne with heq | ⟨e, he, heq⟩
        · exact Or.inr ⟨encoding, List.mem_cons_self, heq⟩
        · exact Or.inr ⟨e, List.mem_cons_of_mem _ he, heq⟩
      · rename_i hworse
        rw [if_neg hworse]
        rcases ih _ _ hne with heq | ⟨e, he, heq⟩
        · exact Or.inl heq
        · exact Or.inr ⟨e, List.mem_cons_of_mem _ he, heq⟩

theorem locateChecksum_ne_nil (encodings : List Encoding) (locs : List Nat) (errorEncoding : Option Encoding)
    (hres : ∀ e ∈ encodings, residueOf hrp values e ≠ 0)
    (h : locs ≠ [] ∨ ∃ e ∈ encodings, locations size hrp values e ≠ []) :
    (locateChecksum size hrp values encodings locs errorEncoding).2 ≠ [] := by
  induction encodings generalizing locs errorEncoding with
  | nil =>
    rcases h with h | ⟨e, he, -⟩
    · exact h
    · cases he
  | cons encoding encodings ih =>
    have hrest := fun e he => hres e (List.mem_cons_of_mem _ he)
    rw [locateChecksum_cons, if_neg (hres encoding List.mem_cons_self)]
    split
    · rename_i hbetter
      apply ih _ _ hrest
      by_cases hloc : locations size hrp values encoding = []
      · rw [hloc] at hbetter
        rcases hbetter with hlocs | ⟨hnil, -⟩
        · rcases h with h | ⟨e, he, hpos⟩
          · exact absurd hlocs h
          · rcases List.mem_cons.mp he with rfl | he
            · exact absurd hloc hpos
            · exact Or.inr ⟨e, he, hpos⟩
        · exact absurd rfl hnil
      · exact Or.inl hloc
    · rename_i hworse
      exact ih _ _ hrest (Or.inl (not_or.mp hworse).1)

theorem length_locateChecksum_le (encodings : List Encoding) :
    (locateChecksum size hrp values encodings [] none).2.length ≤ 2 := by
  by_cases hnil : (locateChecksum size hrp values encodings [] none).2 = []
  · rw [hnil]
    exact Nat.zero_le 2
  · rcases locateChecksum_sound encodings [] none hnil with heq | ⟨e, -, heq⟩
    · exact absurd heq hnil
    · rw [heq, locations, List.length_map]
      exact length_errorPositions_le _ _

theorem Parses.locateErrors (h : Parses str pos values) :
    locateErrors str = locateChecksum str.length ((str.take pos).map lowerCase) values [.bech32, .bech32m] [] none := by
  have hplace := not_or.mpr ⟨h.nonempty, Nat.not_le_of_lt h.room⟩
  rw [Byze.locateErrors, if_neg (Nat.not_lt_of_le h.limit), if_neg (not_not.mpr h.characters), h.found]
  simp [hplace, mapM_eq_some_iff.mpr h.read]

theorem checksumMessage_ne (errorEncoding : Option Encoding) :
    checksumMessage errorEncoding ∉ ["Bech32 string too long", "Invalid character or mixed case", "Missing separator",
      "Invalid separator position", "Invalid Base 32 character"] := by
  cases errorEncoding with
  | none => decide
  | some encoding => cases encoding <;> decide

theorem parses_of_locateErrors {errorEncoding : Option Encoding}
    (h : (locateErrors str).1 = checksumMessage errorEncoding) : ∃ pos values, Parses str pos values := by
  have hother := checksumMessage_ne errorEncoding
  rw [← h] at hother
  revert hother
  unfold locateErrors
  split
  · exact fun hother => absurd (by simp) hother
  rename_i hlimit
  split
  · exact fun hother => absurd (by simp) hother
  rename_i hchars
  split
  · exact fun hother => absurd (by simp) hother
  rename_i pos hpos
  split
  · exact fun hother => absurd (by simp) hother
  rename_i hplace
  split
  · exact fun hother => absurd (by simp) hother
  rename_i values hvalues
  intro _
  rw [not_or] at hplace
  exact ⟨pos, values, not_not.mp hchars, Nat.le_of_not_lt hlimit, hpos, hplace.1, Nat.lt_of_not_le hplace.2,
    mapM_eq_some_iff.mp hvalues⟩
end

section
variable {str str' : Bytes} {pos : Nat} {values values' : List Nat}

def inCase (upper : Bool) (c : UInt8) : UInt8 := if upper && isLowerCase c then c - 32 else c

theorem inCase_table : ∀ v < 32, ∀ upper, charsetRevAt (inCase upper (charsetAt v)) = some v ∧
    (if upper then isLowerCase (inCase upper (charsetAt v)) else isUpperCase (inCase upper (charsetAt v))) = false := by
  decide +kernel

theorem inCase_lowerCase : ∀ c, isLowerCase c = false → inCase true (lowerCase c) = c :=
  forall_uint8 (by decide +kernel)

theorem OneCase.eq_of_lowerCase (h : OneCase str) {c c' : UInt8} (hc : c ∈ str) (hc' : c' ∈ str)
    (heq : lowerCase c = lowerCase c') : c = c' := by
  rcases h with h | h
  · rwa [lowerCase_of_not_upper (h c hc), lowerCase_of_not_upper (h c' hc')] at heq
  · rw [← inCase_lowerCase c (h c hc), ← inCase_lowerCase c' (h c' hc'), heq]

theorem OneCase.mono (h : OneCase str) (hsub : ∀ c ∈ str', c ∈ str) : OneCase str' := by
  rcases h with h | h
  · exact Or.inl fun c hc => h c (hsub c hc)
  · exact Or.inr fun c hc => h c (hsub c hc)

/-- In one case, other characters are other values. -/
theorem countP_errorPattern_eq (hcase : OneCase (str ++ str')) (hread : Reads str values)
    (hread' : Reads str' values') : (errorPattern values values').countP (· ≠ 0) = differences str str' := by
  rw [hread.values_eq, hread'.values_eq, errorPattern_map, List.countP_map]
  refine List.countP_congr fun c hc => ?_
  obtain ⟨hmem, hmem'⟩ := List.of_mem_zip hc
  obtain ⟨v, hv⟩ := hread.exists_value _ hmem
  obtain ⟨v', hv'⟩ := hread'.exists_value _ hmem'
  simp only [Function.comp_apply, decide_eq_true_eq, hv, hv', Option.getD_some, Ne, Nat.xor_eq_zero_iff, not_iff_not]
  constructor
  · intro heq
    apply hcase.eq_of_lowerCase (List.mem_append_left _ hmem) (List.mem_append_right _ hmem')
    rw [← (charsetRevAt_eq_some hv).2, ← (charsetRevAt_eq_some hv').2, heq]
  · intro heq
    rw [heq, hv', Option.some.injEq] at hv
    exact hv.symm

theorem residueOf_replaced {hrp : Bytes} (hlen : values.length = values'.length)
    (hvalid : verifyChecksum hrp values ≠ .invalid) (encoding : Encoding) :
    residueOf hrp values' encoding = (errorPattern values values').foldl polyModStep 0 ^^^
      (encodingConstant (verifyChecksum hrp values) ^^^ encodingConstant encoding) := by
  have hmod := (verifyChecksum_iff hvalid).mp rfl
  rw [residueOf, ← polyMod_xor hrp hlen, hmod, xor_xor_xor_comm, Nat.xor_self, Nat.zero_xor]

/-- One or two other data characters in the same case are located. -/
theorem locateErrors_replaced (h : Parses str pos values) (h' : Parses str' pos values')
    (hlen : str'.length = str.length) (hhead : str'.take (pos + 1) = str.take (pos + 1))
    (hcase : OneCase (str ++ str')) (hvalid : (decodeBech32 str).encoding ≠ .invalid)
    (hpos : 1 ≤ differences str str') (hle : differences str str' ≤ 2) : (locateErrors str').2 ≠ [] := by
  have hhrp : str'.take pos = str.take pos := by
    have htake := congrArg (List.take pos) hhead
    rwa [List.take_take, List.take_take, Nat.min_eq_left (Nat.le_succ pos)] at htake
  have hlength : values.length = values'.length := by
    have hl := h.length_values
    have hl' := h'.length_values
    omega
  have htails : OneCase (str.drop (pos + 1) ++ str'.drop (pos + 1)) := by
    apply hcase.mono
    intro c hc
    rcases List.mem_append.mp hc with hc | hc
    · exact List.mem_append_left _ (List.mem_of_mem_drop hc)
    · exact List.mem_append_right _ (List.mem_of_mem_drop hc)
  have hcount := countP_errorPattern_eq htails h.read h'.read
  rw [← differences_drop hhead] at hcount
  have hlt := errorPattern_lt h.read.lower.1 h'.read.lower.1
  have hsize : (errorPattern values values').length = values'.length := by
    rw [length_errorPattern hlength, hlength]
  have hshort := h'.length_values_le
  rw [h.encoding] at hvalid
  have hresidue := residueOf_replaced hlength hvalid
  have hfold := foldl_polyModStep_ne_zero hlt (by omega) (by omega) (by omega)
  have hother := foldl_polyModStep_ne_encodings hlt (by omega) (by omega) (by omega)
  obtain ⟨positions, hfound⟩ := found_of_pattern hlt (by omega) (by omega)
  rw [h'.locateErrors, hhrp]
  generalize verifyChecksum ((str.take pos).map lowerCase) values = encoding at hvalid hresidue
  have hsame := hresidue encoding
  rw [Nat.xor_self, Nat.xor_zero] at hsame
  rw [hsize, ← hsame] at hfound
  have hlocated := errorPositions_ne_nil (Nat.le_trans hshort (by decide))
    (residueOf_lt _ h'.read.lower.1 _) hfound
  apply locateChecksum_ne_nil
  · intro e he hzero
    rw [hresidue, Nat.xor_eq_zero_iff] at hzero
    cases encoding with
    | invalid => exact hvalid rfl
    | bech32 =>
      rcases List.mem_pair.mp he with rfl | rfl
      · exact hfold (hzero.trans (Nat.xor_self _))
      · exact hother hzero
    | bech32m =>
      rcases List.mem_pair.mp he with rfl | rfl
      · exact hother (hzero.trans (Nat.xor_comm _ _))
      · exact hfold (hzero.trans (Nat.xor_self _))
  · refine Or.inr ⟨encoding, ?_, ?_⟩
    · cases encoding with
      | invalid => exact absurd rfl hvalid
      | bech32 => simp
      | bech32m => simp
    · rw [locations, Ne, List.map_eq_nil_iff]
      exact hlocated
end

section
variable {str : Bytes} {pos : Nat} {values : List Nat}

def repairedCharacter (upper : Bool) (c : UInt8) (e : Nat) : UInt8 :=
  if e = 0 then c else inCase upper (charsetAt ((charsetRevAt c).getD 0 ^^^ e))

theorem charsetRevAt_repairedCharacter (upper : Bool) {c : UInt8} {v e : Nat} (hc : charsetRevAt c = some v)
    (he : e < 32) : charsetRevAt (repairedCharacter upper c e) = some (v ^^^ e) := by
  have hv : v ^^^ e < 2 ^ 5 := Nat.xor_lt_two_pow (charsetRevAt_eq_some hc).1 he
  by_cases hzero : e = 0
  · simp [repairedCharacter, hzero, hc]
  · simp [repairedCharacter, hzero, hc, (inCase_table _ hv upper).1]

theorem repairedCharacter_ne_iff (upper : Bool) {c : UInt8} {v e : Nat} (hc : charsetRevAt c = some v)
    (he : e < 32) : repairedCharacter upper c e ≠ c ↔ e ≠ 0 := by
  have hread := charsetRevAt_repairedCharacter upper hc he
  constructor
  · intro hne hzero
    rw [repairedCharacter, if_pos hzero] at hne
    exact hne rfl
  · intro hzero heq
    rw [heq, hc, Option.some.injEq] at hread
    have hxor : v ^^^ (v ^^^ e) = 0 := by simp [← hread]
    rw [← Nat.xor_assoc, Nat.xor_self, Nat.zero_xor] at hxor
    exact hzero hxor

variable {es : List Nat} {tail : Bytes}

theorem Reads.repaired (upper : Bool) (h : Reads tail values) (hes : ∀ e ∈ es, e < 32) :
    Reads (List.zipWith (repairedCharacter upper) tail es) (errorPattern values es) := by
  induction h generalizing es with
  | nil => exact .nil
  | cons hc _ ih =>
    cases es with
    | nil => exact .nil
    | cons e es =>
      rw [List.forall_mem_cons] at hes
      exact .cons (charsetRevAt_repairedCharacter upper hc hes.1) (ih hes.2)

theorem repaired_ne_iff (upper : Bool) (hlen : es.length = tail.length)
    (hread : Reads tail values) (hes : ∀ e ∈ es, e < 32) (j : Nat) :
    (List.zipWith (repairedCharacter upper) tail es)[j]? ≠ tail[j]? ↔ es.getD j 0 ≠ 0 := by
  rw [List.getElem?_zipWith, List.getD_eq_getElem?_getD]
  by_cases hj : j < tail.length
  · have hj' : j < es.length := by rwa [hlen]
    obtain ⟨v, hv⟩ := hread.exists_value tail[j] (List.getElem_mem hj)
    have hne := repairedCharacter_ne_iff upper hv (hes es[j] (List.getElem_mem hj'))
    rw [List.getElem?_eq_getElem hj, List.getElem?_eq_getElem hj', Option.getD_some, ← hne]
    simp
  · have hnone : tail[j]? = none := List.getElem?_eq_none (Nat.le_of_not_lt hj)
    have hnone' : es[j]? = none := List.getElem?_eq_none (by omega)
    rw [hnone, hnone']
    simp

theorem repaired_case {upper : Bool} (hread : Reads tail values) (hes : ∀ e ∈ es, e < 32)
    (hcase : ∀ c ∈ tail, (if upper then isLowerCase c else isUpperCase c) = false) :
    ∀ c ∈ List.zipWith (repairedCharacter upper) tail es,
      (if upper then isLowerCase c else isUpperCase c) = false := by
  induction hread generalizing es with
  | nil => simp
  | cons hc _ ih =>
    cases es with
    | nil => simp
    | cons e es =>
      rw [List.forall_mem_cons] at hes hcase
      rw [List.zipWith_cons_cons, List.forall_mem_cons]
      refine ⟨?_, ih hes.2 hcase.2⟩
      by_cases hzero : e = 0
      · rw [repairedCharacter, if_pos hzero]
        exact hcase.1
      · rw [repairedCharacter, if_neg hzero, hc]
        exact (inCase_table _ (Nat.xor_lt_two_pow (n := 5) (charsetRevAt_eq_some hc).1 hes.1) upper).2

/-- The places that are reported, counted from the left. -/
theorem Pattern.mem_locations {n size : Nat} {positions coeffs : List Nat} (h : Pattern n positions coeffs)
    (hsize : n + (pos + 1) = size) (i : Nat) :
    i ∈ positions.map (fun p => size - p - 1) ↔ pos + 1 ≤ i ∧ coeffs.reverse.getD (i - (pos + 1)) 0 ≠ 0 := by
  have hlt : ∀ {l : List Nat} {k : Nat}, l.getD k 0 ≠ 0 → k < l.length := by
    intro l k hk
    by_contra hle
    exact hk (List.getD_eq_default _ _ (Nat.le_of_not_lt hle))
  have hreverse : ∀ {k}, k < n → coeffs.reverse.getD k 0 = coeffs.getD (n - 1 - k) 0 := by
    intro k hk
    rw [List.getD_eq_getElem?_getD, List.getElem?_reverse (by rwa [h.length_eq]), h.length_eq,
      ← List.getD_eq_getElem?_getD]
  constructor
  · intro hi
    obtain ⟨p, hp, rfl⟩ := List.mem_map.mp hi
    have hvalue := (h.mem_iff p).mp hp
    have hpn := hlt hvalue
    rw [h.length_eq] at hpn
    refine ⟨by omega, ?_⟩
    rw [hreverse (by omega)]
    have hp' : n - 1 - (size - p - 1 - (pos + 1)) = p := by omega
    rwa [hp']
  · rintro ⟨hi, hvalue⟩
    have hj := hlt hvalue
    rw [List.length_reverse, h.length_eq] at hj
    rw [hreverse hj] at hvalue
    exact List.mem_map.mpr ⟨_, (h.mem_iff _).mpr hvalue, by omega⟩

def repaired (upper : Bool) (pos : Nat) (str : Bytes) (es : List Nat) : Bytes :=
  str.take (pos + 1) ++ List.zipWith (repairedCharacter upper) (str.drop (pos + 1)) es

theorem Parses.repaired {upper : Bool} (h : Parses str pos values) (hes : ∀ e ∈ es, e < 32)
    (hlen : es.length = values.length)
    (hupper : ∀ c ∈ str, (if upper then isLowerCase c else isUpperCase c) = false) :
    Parses (repaired upper pos str es) pos (errorPattern values es) := by
  have hsize := h.length_values
  apply h.with_tail _ (h.read.repaired upper hes)
  · have hcase := repaired_case h.read hes fun c hc => hupper c (List.mem_of_mem_drop hc)
    have hall : ∀ c ∈ Byze.repaired upper pos str es, (if upper then isLowerCase c else isUpperCase c) = false := by
      intro c hc
      rcases List.mem_append.mp hc with hc | hc
      · exact hupper c (List.mem_of_mem_take hc)
      · exact hcase c hc
    cases upper with
    | false => exact Or.inl hall
    | true => exact Or.inr hall
  · rw [List.length_zipWith, List.length_drop]
    omega

theorem Parses.getElem?_repaired_ne_iff (h : Parses str pos values) (upper : Bool)
    (hes : ∀ e ∈ es, e < 32) (hlen : es.length = values.length) (i : Nat) :
    (Byze.repaired upper pos str es)[i]? ≠ str[i]? ↔ pos + 1 ≤ i ∧ es.getD (i - (pos + 1)) 0 ≠ 0 := by
  have hsize := h.length_values
  have hhead : (str.take (pos + 1)).length = pos + 1 := by
    rw [List.length_take]
    omega
  by_cases hi : i < pos + 1
  · rw [Byze.repaired, List.getElem?_append_left (by omega), List.getElem?_take_of_lt hi]
    exact iff_of_false (fun hself => hself rfl) fun hle => absurd hle.1 (Nat.not_le_of_lt hi)
  · have hi' : pos + 1 ≤ i := Nat.le_of_not_lt hi
    have hdrop : str[i]? = (str.drop (pos + 1))[i - (pos + 1)]? := by
      rw [List.getElem?_drop, Nat.add_sub_cancel' hi']
    have htail : es.length = (str.drop (pos + 1)).length := by
      rw [List.length_drop]
      omega
    rw [Byze.repaired, List.getElem?_append_right (by omega), hhead, hdrop,
      repaired_ne_iff upper htail h.read hes, and_iff_right hi']

theorem exists_repaired (h : Parses str pos values) (hne : (locateErrors str).2 ≠ []) :
    ∃ str' : Bytes, str'.length = str.length ∧ (∀ i : Nat, str'[i]? ≠ str[i]? ↔ i ∈ (locateErrors str).2) ∧
      (decodeBech32 str').encoding ≠ .invalid := by
  rw [h.locateErrors] at hne ⊢
  generalize hhrp : (str.take pos).map lowerCase = hrp at hne ⊢
  rcases locateChecksum_sound _ _ _ hne with hnil | ⟨encoding, hmem, hlocations⟩
  · exact absurd hnil hne
  have hencoding : encoding ≠ .invalid := by
    rcases List.mem_pair.mp hmem with rfl | rfl <;> decide
  rw [hlocations] at hne ⊢
  have hres := residueOf_lt hrp h.read.lower.1 encoding
  have hpositions : errorPositions values.length (residueOf hrp values encoding) ≠ [] :=
    fun hnil => hne (List.map_eq_nil_iff.mpr hnil)
  have hfound := found_errorPositions (Nat.le_trans h.length_values_le (by decide)) hres hpositions
  obtain ⟨coeffs, hpattern, hfold⟩ := hfound.exists_pattern hres
  have hes : ∀ e ∈ coeffs.reverse, e < 32 := fun e he => hpattern.lt e (List.mem_reverse.mp he)
  have hlength : coeffs.reverse.length = values.length := by simp [hpattern.length_eq]
  obtain ⟨upper, hupper⟩ : ∃ upper : Bool, ∀ c ∈ str, (if upper then isLowerCase c else isUpperCase c) = false := by
    rcases ((checkCharacters_iff str).mp h.characters).2 with hcase | hcase
    · exact ⟨false, hcase⟩
    · exact ⟨true, hcase⟩
  have hparse := h.repaired hes hlength hupper
  refine ⟨repaired upper pos str coeffs.reverse, ?_, ?_, ?_⟩
  · have hsize := h.length_values
    have hsize' := hparse.length_values
    rw [length_errorPattern hlength.symm] at hsize'
    omega
  · intro i
    rw [locations, hpattern.mem_locations h.length_values, h.getElem?_repaired_ne_iff upper hes hlength]
  · have hchecksum : verifyChecksum hrp (errorPattern values coeffs.reverse) = encoding := by
      rw [verifyChecksum_iff hencoding, polyMod_prepare, ← Nat.xor_zero (polyMod _),
        foldl_errorPattern hlength.symm, ← polyMod_prepare, hfold, residueOf, ← Nat.xor_assoc, Nat.xor_self, Nat.zero_xor]
    rw [hparse.encoding, repaired, h.take_tail, hhrp, hchecksum]
    exact hencoding
end

/-- One or two data characters that are replaced in the same case are located, and a string
that is reported with a wrong checksum can be made valid at exactly the reported places. -/
theorem bech32_locateErrors :
    (∀ (str str' : Bytes) (pos : Nat), (decodeBech32 str).encoding ≠ .invalid → rfind separator str = some pos →
      str'.length = str.length → str'.take (pos + 1) = str.take (pos + 1) →
      (∀ c ∈ str'.drop (pos + 1), (charsetRevAt c).isSome = true) → OneCase (str ++ str') →
      1 ≤ differences str str' → differences str str' ≤ 2 →
      (locateErrors str').2 ≠ [] ∧ (locateErrors str').2.length ≤ 2) ∧
    (∀ (str : Bytes) (errorEncoding : Option Encoding), (locateErrors str).1 = checksumMessage errorEncoding →
      (locateErrors str).2 ≠ [] →
      ∃ str' : Bytes, str'.length = str.length ∧ (∀ i : Nat, str'[i]? ≠ str[i]? ↔ i ∈ (locateErrors str).2) ∧
        (decodeBech32 str').encoding ≠ .invalid) := by
  constructor
  · intro str str' pos hvalid hpos hlen hhead hcharset hcase hone htwo
    obtain ⟨p, values, hparse⟩ := parses_of_decodeBech32 hvalid
    obtain rfl : p = pos := Option.some.inj (hparse.found.symm.trans hpos)
    have hread : Reads (str'.drop (p + 1)) ((str'.drop (p + 1)).map fun c => (charsetRevAt c).getD 0) := by
      refine List.forall₂_map_right_iff.mpr (List.forall₂_same.mpr fun c hc => ?_)
      obtain ⟨v, hv⟩ := Option.isSome_iff_exists.mp (hcharset c hc)
      rw [hv, Option.getD_some]
    have hsplit : str' = str.take (p + 1) ++ str'.drop (p + 1) := by
      simp [← hhead]
    have hcase' : OneCase (str.take (p + 1) ++ str'.drop (p + 1)) := by
      rw [← hsplit]
      exact hcase.mono fun c hc => List.mem_append_right _ hc
    have hparse' := hparse.with_tail (by simp [hlen]) hread hcase'
    rw [← hsplit] at hparse'
    refine ⟨locateErrors_replaced hparse hparse' hlen hhead hcase hvalid hone htwo, ?_⟩
    rw [hparse'.locateErrors]
    exact length_locateChecksum_le _
  · intro str errorEncoding hmessage hne
    obtain ⟨pos, values, hparse⟩ := parses_of_locateErrors hmessage
    exact exists_repaired hparse hne

theorem bech32_locateErrors_sample :
    (locateErrors (asciiBytes "A1LQFN4A")).2 ≠ [] ∧ (locateErrors (asciiBytes "A1LQFN4A")).2.length ≤ 2 :=
  bech32_locateErrors.1 (asciiBytes "A1LQFN3A") (asciiBytes "A1LQFN4A") 1 (by decide +kernel) (by decide +kernel)
    (by decide +kernel) (by decide +kernel) (by decide +kernel) (Or.inr (by decide +kernel)) (by decide +kernel)
    (by decide +kernel)

end Byze
