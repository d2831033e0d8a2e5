import Byze.Bech32Field

/-! The residue of an error pattern as a polynomial over the field, and the distance of the
code: up to three wrong data characters never leave the checksum right. -/

namespace Byze
open XorField

noncomputable def valueAt (x : Gf) (coeffs : List Nat) : Gf :=
  ∑ i ∈ Finset.range coeffs.length, toGf (coeffs.getD i 0) * x ^ i

def support (coeffs : List Nat) : Finset Nat := (Finset.range coeffs.length).filter fun i => coeffs.getD i 0 ≠ 0

theorem mem_support {coeffs : List Nat} {i : Nat} :
    i ∈ support coeffs ↔ i < coeffs.length ∧ coeffs.getD i 0 ≠ 0 := by
  simp [support]

theorem card_support (coeffs : List Nat) : (support coeffs).card = coeffs.countP (· ≠ 0) := by
  induction coeffs with
  | nil => rfl
  | cons v coeffs ih =>
    rw [support, Finset.card_filter] at ih ⊢
    rw [List.length_cons, Finset.sum_range_succ', List.countP_cons]
    congr 1
    simp

theorem valueAt_cons (x : Gf) (v : Nat) (coeffs : List Nat) :
    valueAt x (v :: coeffs) = valueAt x coeffs * x + toGf v := by
  rw [valueAt, List.length_cons, Finset.sum_range_succ', valueAt, Finset.sum_mul, pow_zero, mul_one]
  congr 1
  apply Finset.sum_congr rfl
  intro i _
  rw [List.getD_cons_succ, pow_succ, mul_assoc]

theorem valueAt_eq_sum_support (x : Gf) (coeffs : List Nat) :
    valueAt x coeffs = ∑ i ∈ support coeffs, toGf (coeffs.getD i 0) * x ^ i := by
  rw [valueAt, support, Finset.sum_filter_of_ne]
  intro i _ hne hgone
  apply hne
  rw [hgone, toGf_zero, zero_mul]

theorem getD_lt {coeffs : List Nat} (h : ∀ v ∈ coeffs, v < 32) (i : Nat) : coeffs.getD i 0 < 32 := by
  by_cases hi : i < coeffs.length
  · rw [List.getD_eq_getElem _ _ hi]
    exact h _ (List.getElem_mem hi)
  · rw [List.getD_eq_default _ _ (Nat.le_of_not_lt hi)]
    decide

theorem toGf_synAt_foldl {t : Nat} (ht : t < 3) {es : List Nat} (hes : ∀ e ∈ es, e < 32) :
    toGf (synAt t (es.foldl polyModStep 0)) = valueAt (genE ^ (997 + t)) es.reverse := by
  induction es using List.reverseRecOn with
  | nil =>
    rw [List.foldl_nil, synAt_small t ht 0 (by decide)]
    rfl
  | append_singleton es e ih =>
    have hlow : ∀ x ∈ es, x < 32 := fun x hx => hes x (List.mem_append_left _ hx)
    have he : e < 32 := hes e (List.mem_append_right _ (List.mem_singleton_self e))
    have hlt := foldl_polyModStep_lt (Nat.two_pow_pos 30) hlow
    simp [toGf_synAt_polyModStep ht hlt he, ih hlow, valueAt_cons]

theorem pow_split (t i : Nat) : ((genE : Gf) ^ (997 + t)) ^ i = genE ^ (997 * i) * (genE ^ i) ^ t := by
  ring

/-- A pattern of one to three errors is not a multiple of the generator. -/
theorem foldl_polyModStep_ne_zero {es : List Nat} (hes : ∀ e ∈ es, e < 32) (hlen : es.length ≤ 1023)
    (hpos : 1 ≤ es.countP (· ≠ 0)) (hle : es.countP (· ≠ 0) ≤ 3) : es.foldl polyModStep 0 ≠ 0 := by
  intro hzero
  have hrev : ∀ e ∈ es.reverse, e < 32 := fun e he => hes e (List.mem_reverse.mp he)
  have hcard := (card_support es.reverse).trans List.countP_reverse
  have hlt : ∀ i ∈ support es.reverse, i < 1023 := by
    intro i hi
    have h := (mem_support.mp hi).1
    rw [List.length_reverse] at h
    exact Nat.lt_of_lt_of_le h hlen
  have hsum : ∀ t < 3, ∑ i ∈ support es.reverse,
      toGf (es.reverse.getD i 0) * genE ^ (997 * i) * (genE ^ i) ^ t = 0 := by
    intro t ht
    have hvalue := toGf_synAt_foldl ht hes
    rw [hzero, synAt_small t ht 0 (by decide), toGf_zero, valueAt_eq_sum_support] at hvalue
    rw [hvalue]
    apply Finset.sum_congr rfl
    intro i _
    rw [pow_split, mul_assoc]
  have hinj : ∀ i ∈ support es.reverse, ∀ j ∈ support es.reverse, genE ^ i = genE ^ j → i = j := by
    intro i hi j hj hij
    have h := (genE_pow_eq_iff i j).mp hij
    rwa [Nat.mod_eq_of_lt (hlt i hi), Nat.mod_eq_of_lt (hlt j hj)] at h
  have hall := eq_zero_of_power_sums hinj fun t ht => hsum t (by omega)
  obtain ⟨i, hi⟩ : (support es.reverse).Nonempty := Finset.card_pos.mp (by omega)
  rcases mul_eq_zero.mp (hall i hi) with hz | hz
  · exact (mem_support.mp hi).2 ((toGf_eq_zero_iff (Nat.lt_trans (getD_lt hrev i) (by decide))).mp hz)
  · exact pow_ne_zero _ genE_ne_zero hz

section

def errorPattern (values values' : List Nat) : List Nat := List.zipWith (· ^^^ ·) values values'

variable {values values' : List Nat}

theorem errorPattern_lt (h : ∀ v ∈ values, v < 32) (h' : ∀ v ∈ values', v < 32) :
    ∀ e ∈ errorPattern values values', e < 32 := by
  induction values generalizing values' with
  | nil => simp [errorPattern]
  | cons v values ih =>
    cases values' with
    | nil => simp [errorPattern]
    | cons v' values' =>
      rw [List.forall_mem_cons] at h h'
      have hrest := ih h.2 h'.2
      have hhead : v ^^^ v' < 2 ^ 5 := Nat.xor_lt_two_pow h.1 h'.1
      rw [errorPattern, List.zipWith_cons_cons, List.forall_mem_cons]
      exact ⟨hhead, hrest⟩

theorem length_errorPattern (h : values.length = values'.length) :
    (errorPattern values values').length = values.length := by
  simp [errorPattern, ← h]

theorem foldl_errorPattern (hlen : values.length = values'.length) (c d : Nat) :
    (errorPattern values values').foldl polyModStep (c ^^^ d) =
      values.foldl polyModStep c ^^^ values'.foldl polyModStep d := by
  induction values generalizing values' c d with
  | nil =>
    rw [List.eq_nil_of_length_eq_zero hlen.symm]
    rfl
  | cons v values ih =>
    cases values' with
    | nil => simp at hlen
    | cons v' values' =>
      have hrest : values.length = values'.length := by simpa using hlen
      rw [List.foldl_cons, List.foldl_cons, ← ih hrest, errorPattern, List.zipWith_cons_cons,
        List.foldl_cons, polyModStep_xor]
      rfl

theorem polyMod_prepare (hrp : Bytes) (values : List Nat) :
    polyMod (preparePolynomialCoefficients hrp values) =
      values.foldl polyModStep (polyMod (preparePolynomialCoefficients hrp [])) := by
  simp [polyMod, preparePolynomialCoefficients]

theorem polyMod_xor (hrp : Bytes) (hlen : values.length = values'.length) :
    polyMod (preparePolynomialCoefficients hrp values) ^^^ polyMod (preparePolynomialCoefficients hrp values') =
      (errorPattern values values').foldl polyModStep 0 := by
  rw [polyMod_prepare, polyMod_prepare hrp values', ← foldl_errorPattern hlen, Nat.xor_self]

def differences (str str' : Bytes) : Nat := (str.zip str').countP fun c => c.1 ≠ c.2

theorem errorPattern_map (f : UInt8 → Nat) (str str' : Bytes) :
    errorPattern (str.map f) (str'.map f) = (str.zip str').map fun c => f c.1 ^^^ f c.2 := by
  rw [errorPattern, List.zipWith_map, List.zip, List.map_zipWith]

theorem countP_errorPattern_le (f : UInt8 → Nat) (str str' : Bytes) :
    (errorPattern (str.map f) (str'.map f)).countP (· ≠ 0) ≤ differences str str' := by
  rw [errorPattern_map, List.countP_map]
  apply List.countP_mono_left
  intro c _ h
  simp only [Function.comp_apply, decide_eq_true_eq] at h ⊢
  intro heq
  rw [heq, Nat.xor_self] at h
  exact h rfl

theorem eq_of_errorPattern (hlen : values.length = values'.length)
    (h : (errorPattern values values').countP (· ≠ 0) = 0) : values = values' := by
  induction values generalizing values' with
  | nil =>
    exact (List.eq_nil_of_length_eq_zero hlen.symm).symm
  | cons v values ih =>
    cases values' with
    | nil => simp at hlen
    | cons v' values' =>
      have hrest : values.length = values'.length := by simpa using hlen
      rw [errorPattern, List.zipWith_cons_cons, List.countP_cons, Nat.add_eq_zero_iff] at h
      have hhead : v ^^^ v' = 0 := by simpa using h.2
      rw [Nat.xor_eq_zero_iff.mp hhead, ih hrest h.1]
end

section
variable {str : Bytes} {pos : Nat} {values : List Nat}

theorem Parses.encoding (h : Parses str pos values) :
    (Byze.decodeBech32 str).encoding = verifyChecksum ((str.take pos).map lowerCase) values := by
  rw [h.decodeBech32]
  by_cases hv : verifyChecksum ((str.take pos).map lowerCase) values = .invalid
  · rw [if_pos hv, hv]
  · rw [if_neg hv]

theorem Parses.hrp (h : Parses str pos values) (hv : (Byze.decodeBech32 str).encoding ≠ .invalid) :
    (Byze.decodeBech32 str).hrp = (str.take pos).map lowerCase := by
  rw [h.encoding] at hv
  rw [h.decodeBech32, if_neg hv]

theorem Parses.length_values (h : Parses str pos values) : values.length + (pos + 1) = str.length := by
  have hroom := h.room
  rw [← h.read.length_eq, List.length_drop]
  omega

theorem Parses.length_values_le (h : Parses str pos values) : values.length ≤ 88 := by
  have hlength := h.length_values
  have hlimit : str.length ≤ 90 := h.limit
  have hpos := h.nonempty
  omega
end

theorem differences_append {head head' tail tail' : Bytes} (h : head.length = head'.length) :
    differences (head ++ tail) (head' ++ tail') = differences head head' + differences tail tail' := by
  rw [differences, List.zip_append h, List.countP_append]
  rfl

theorem differences_self (str : Bytes) : differences str str = 0 := by
  rw [differences, List.countP_eq_zero]
  intro c hc
  have heq : c.1 = c.2 := by
    rw [List.zip_eq_zipWith] at hc
    simp only [List.zipWith_self, List.mem_map] at hc
    obtain ⟨a, -, rfl⟩ := hc
    rfl
  simpa using heq

theorem differences_drop {str str' : Bytes} {n : Nat}
    (hhead : str'.take n = str.take n) : differences str str' = differences (str.drop n) (str'.drop n) := by
  have hsplit : differences (str.take n ++ str.drop n) (str'.take n ++ str'.drop n) = _ :=
    differences_append (congrArg List.length hhead.symm)
  rw [List.take_append_drop, List.take_append_drop, hhead, differences_self, Nat.zero_add] at hsplit
  exact hsplit

theorem Parses.lower_eq {str str' : Bytes} {pos : Nat} {values values' : List Nat} {hrp : Bytes}
    (h : Parses str pos values) (h' : Parses str' pos values') (hlen : str'.length = str.length)
    (hhead : str'.take (pos + 1) = str.take (pos + 1)) (hdiff : differences str str' ≤ 3)
    (hvalid : verifyChecksum hrp values ≠ .invalid)
    (hsame : verifyChecksum hrp values' = verifyChecksum hrp values) :
    str'.map lowerCase = str.map lowerCase := by
  have hlength : values.length = values'.length := by
    have hl := h.length_values
    have hl' := h'.length_values
    omega
  have hzero : (errorPattern values values').foldl polyModStep 0 = 0 := by
    have hmod := (verifyChecksum_iff hvalid).mp rfl
    have hmod' := (verifyChecksum_iff hvalid).mp hsame
    simp [← polyMod_xor hrp hlength, hmod, hmod']
  have hcount : (errorPattern values values').countP (· ≠ 0) ≤ 3 := by
    rw [h.read.values_eq, h'.read.values_eq]
    apply Nat.le_trans (countP_errorPattern_le _ _ _)
    rwa [← differences_drop hhead]
  have hsmall : (errorPattern values values').length ≤ 1023 := by
    have hle := h.length_values_le
    rw [length_errorPattern hlength]
    omega
  have hlt := errorPattern_lt h.read.lower.1 h'.read.lower.1
  have hnone : (errorPattern values values').countP (· ≠ 0) = 0 := by
    by_contra hsome
    exact foldl_polyModStep_ne_zero hlt hsmall (Nat.pos_of_ne_zero hsome) hcount hzero
  have hvalues := eq_of_errorPattern hlength hnone
  have htail : (str'.drop (pos + 1)).map lowerCase = (str.drop (pos + 1)).map lowerCase := by
    rw [← h.read.lower.2, ← h'.read.lower.2, hvalues]
  rw [← List.take_append_drop (pos + 1) str', ← List.take_append_drop (pos + 1) str, List.map_append,
    List.map_append, htail, hhead]

/-- What was encoded is decoded again. At most three changed data characters, at least one
of them changed in more than its case, are never accepted with the same encoding and
human-readable part. -/
theorem bech32_checksum :
    (∀ (encoding : Encoding) (hrp : Bytes) (values : List Nat), encoding ≠ .invalid → hrp ≠ [] →
      (∀ c ∈ hrp, PlainCharacter c) → (∀ v ∈ values, v < 32) →
      hrp.length + 1 + values.length + checksumSize ≤ charLimit →
      ∃ str, encodeBech32 encoding hrp values = some str ∧ decodeBech32 str = ⟨encoding, hrp, values⟩) ∧
    (∀ (str str' : Bytes) (pos : Nat), (decodeBech32 str).encoding ≠ .invalid →
      rfind separator str = some pos → str'.length = str.length → str'.take (pos + 1) = str.take (pos + 1) →
      differences str str' ≤ 3 → str'.map lowerCase ≠ str.map lowerCase →
      ¬((decodeBech32 str').encoding = (decodeBech32 str).encoding ∧
        (decodeBech32 str').hrp = (decodeBech32 str).hrp)) := by
  constructor
  · intro encoding hrp values hvalid hhrp hplain hvalues hlimit
    have hstr := encodeBech32_eq values hvalid hplain
    have hshort : hrp.length + values.length ≤ 83 := by
      have h : hrp.length + 1 + values.length + 6 ≤ 90 := hlimit
      omega
    exact ⟨_, hstr, decode_encodeBech32 hstr hhrp hplain hvalues hshort⟩
  · rintro str str' pos hvalid hpos hlength hhead hdiff hcase ⟨hencoding, hhrp⟩
    have hvalid' : (decodeBech32 str').encoding ≠ .invalid := by rwa [hencoding]
    obtain ⟨p, values, hparse⟩ := parses_of_decodeBech32 hvalid
    obtain ⟨p', values', hparse'⟩ := parses_of_decodeBech32 hvalid'
    have hp : p = pos := Option.some.inj (hparse.found.symm.trans hpos)
    subst hp
    rw [hparse'.hrp hvalid', hparse.hrp hvalid] at hhrp
    have hp' : p' = p := by
      have hroom' := hparse'.room
      have h := congrArg List.length hhrp
      rw [List.length_map, List.length_map, List.length_take, List.length_take] at h
      omega
    subst hp'
    rw [hparse'.encoding, hparse.encoding, hhrp] at hencoding
    rw [hparse.encoding] at hvalid
    exact hcase (hparse.lower_eq hparse' hlength hhead hdiff hvalid hencoding)

theorem bech32_checksum_sample : (decodeBech32 (asciiBytes "A1LQFN3A")).encoding = .bech32m ∧
      ¬((decodeBech32 (asciiBytes "A1LQFN4A")).encoding = (decodeBech32 (asciiBytes "A1LQFN3A")).encoding ∧
        (decodeBech32 (asciiBytes "A1LQFN4A")).hrp = (decodeBech32 (asciiBytes "A1LQFN3A")).hrp) :=
  ⟨by decide +kernel, bech32_checksum.2 _ _ 1 (by decide +kernel) (by decide +kernel) (by decide +kernel)
    (by decide +kernel) (by decide +kernel) (by decide +kernel)⟩

/-- Three data characters in the other case are accepted as they were. -/
theorem bech32_case_change : (decodeBech32 (asciiBytes "21086t0kq")).encoding = .bech32m ∧
      (asciiBytes "21086T0KQ").take 2 = (asciiBytes "21086t0kq").take 2 ∧
      rfind separator (asciiBytes "21086t0kq") = some 1 ∧
      differences (asciiBytes "21086t0kq") (asciiBytes "21086T0KQ") = 3 ∧
      (decodeBech32 (asciiBytes "21086T0KQ")).encoding = (decodeBech32 (asciiBytes "21086t0kq")).encoding ∧
      (decodeBech32 (asciiBytes "21086T0KQ")).hrp = (decodeBech32 (asciiBytes "21086t0kq")).hrp := by
  decide +kernel

end Byze
