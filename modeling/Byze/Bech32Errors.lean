import Byze.Bech32Distance

/-! The search for wrong characters finds every pattern of one or two errors, and what it
finds is such a pattern. -/

namespace Byze
open XorField

theorem gf_two : (2 : Gf) = 0 := by rw [← one_add_one_eq_two, Elem.add_self]

theorem genE_pow_ne_zero (k : Nat) : genE ^ k ≠ 0 := pow_ne_zero k genE_ne_zero

theorem genE_pow_inj {i j : Nat} (hi : i < 1023) (hj : j < 1023) (h : genE ^ i = genE ^ j) : i = j := by
  rw [genE_pow_eq_iff, Nat.mod_eq_of_lt hi, Nat.mod_eq_of_lt hj] at h
  exact h

theorem genE_pow_add_ne_zero {i j : Nat} (hi : i < 1023) (hj : j < 1023) (hne : i ≠ j) :
    genE ^ i + genE ^ j ≠ 0 := by
  intro hzero
  exact hne (genE_pow_inj hi hj (Elem.add_eq_zero_iff.mp hzero))

theorem toGf_expAt_of_lt {k : Nat} (hk : k < 1023) : toGf (expAt k) = genE ^ k := by
  have h := toGf_expAt k
  rwa [Nat.mod_eq_of_lt hk] at h

theorem scaleBy_lt (s : Nat) (logS : Int) (p : Nat) : scaleBy s logS p < 2 ^ 10 := by
  by_cases hs : s = 0
  · rw [scaleBy, if_pos hs]
    exact Nat.two_pow_pos 10
  · have hlt : ((logS + p) % 1023).toNat < 1023 := by omega
    rw [scaleBy, if_neg hs]
    exact expAt_lt hlt

theorem toGf_scaleBy {s : Nat} (hs : s < 2 ^ 10) (p : Nat) :
    toGf (scaleBy s (logAt s) p) = toGf s * genE ^ p := by
  by_cases hzero : s = 0
  · simp [scaleBy, hzero, toGf_zero]
  · obtain ⟨k, hk, hlog, hpow⟩ := exists_logAt hs hzero
    have hexp : (((k : Int) + p) % 1023).toNat = (k + p) % 1023 := by omega
    simp [scaleBy, hzero, hlog, hexp, toGf_expAt, pow_add, hpow]

/-- The elements of the smaller field are the powers whose exponent is a multiple of 33. -/
theorem exists_value_iff (k : Nat) : (∃ e, e ≠ 0 ∧ e < 32 ∧ toGf e = genE ^ k) ↔ k % 33 = 0 := by
  have hmask : wordMask ((List.range 31).map fun j => expAt (33 * j)) = 2 * (2 ^ 31 - 1) := by decide +kernel
  have hvalue : ∀ e, (∃ j < 31, expAt (33 * j) = e) ↔ e ≠ 0 ∧ e < 32 := by
    intro e
    rw [← mem_of_wordMask hmask, List.mem_map]
    simp
  have hpow : ∀ j < 31, toGf (expAt (33 * j)) = genE ^ (33 * j) := fun j hj => toGf_expAt_of_lt (by omega)
  constructor
  · rintro ⟨e, hzero, he, heq⟩
    obtain ⟨j, hj, rfl⟩ := (hvalue e).mpr ⟨hzero, he⟩
    rw [hpow j hj, genE_pow_eq_iff] at heq
    omega
  · intro hk
    have hj : k % 1023 / 33 < 31 := by omega
    obtain ⟨hzero, he⟩ := (hvalue _).mp ⟨_, hj, rfl⟩
    refine ⟨expAt (33 * (k % 1023 / 33)), hzero, he, ?_⟩
    rw [hpow _ hj, genE_pow_eq_iff]
    omega

/-- An error value at a place, from the logarithm of the term it gives. -/
theorem exists_value_at_iff (n p : Nat) :
    (∃ e, e ≠ 0 ∧ e < 32 ∧ toGf e * genE ^ (997 * p) = genE ^ n) ↔ (n + 26 * p) % 33 = 0 := by
  have hcancel : ∀ x : Gf, x * genE ^ (997 * p) = genE ^ n ↔ x = genE ^ (n + 26 * p) := by
    intro x
    have horder : genE ^ (26 * p) * genE ^ (997 * p) = 1 := by
      rw [← pow_add, ← Nat.add_mul, pow_mul, genE_pow_1023, one_pow]
    have hsplit : genE ^ n = genE ^ (n + 26 * p) * genE ^ (997 * p) := by
      rw [pow_add, mul_assoc, horder, mul_one]
    rw [hsplit]
    exact mul_left_inj' (genE_pow_ne_zero _)
  simp only [hcancel]
  exact exists_value_iff _

/-- The quotient of two elements by their logarithms. -/
theorem logRatio_iff {k l p : Nat} (hk : k < 1023) (hp : p < 1023) :
    (((k : Int) - l + 1023) % 1023).toNat = p ↔ genE ^ p * genE ^ l = genE ^ k := by
  rw [← pow_add, genE_pow_eq_iff]
  omega

section
variable {length s t s0 s1 s2 p p1 p2 : Nat}

theorem ErrorAt.ne_zero {a : Gf} (h : ErrorAt p a) : a ≠ 0 := by
  obtain ⟨e, hzero, he, rfl⟩ := h
  have hvalue : toGf e ≠ 0 := mt (toGf_eq_zero_iff (Nat.lt_trans he (by decide))).mp hzero
  exact mul_ne_zero hvalue (genE_pow_ne_zero _)

theorem shifted_lt (hs : s < 2 ^ 10) (t p : Nat) : s ^^^ scaleBy t (logAt t) p < 2 ^ 10 :=
  Nat.xor_lt_two_pow hs (scaleBy_lt _ _ _)

theorem toGf_shifted (ht : t < 2 ^ 10) (s p : Nat) :
    toGf (s ^^^ scaleBy t (logAt t) p) = toGf s + toGf t * genE ^ p := by
  rw [toGf_xor, toGf_scaleBy ht]

/-- The test on the logarithm of an error: the quotient is a value of five bits. -/
theorem logE_iff {b : Nat} (hb : b < 2 ^ 10) (hzero : b ≠ 0) (hp1 : p1 < 1023) (hp2 : p2 < 1023) (hne : p1 ≠ p2) :
    (logAt b + (1023 - logAt (expAt p1 ^^^ expAt p2)) + (1023 - 997) * p) % 33 = 0 ↔
      ∃ a, ErrorAt p a ∧ a * (genE ^ p1 + genE ^ p2) = toGf b := by
  have hsum : toGf (expAt p1 ^^^ expAt p2) = genE ^ p1 + genE ^ p2 := by
    rw [toGf_xor, toGf_expAt_of_lt hp1, toGf_expAt_of_lt hp2]
  have hlt := Nat.xor_lt_two_pow (expAt_lt hp1) (expAt_lt hp2)
  have hx : expAt p1 ^^^ expAt p2 ≠ 0 := by
    intro h
    rw [h, toGf_zero] at hsum
    exact genE_pow_add_ne_zero hp1 hp2 hne hsum.symm
  obtain ⟨k, hk, hlogb, hpowb⟩ := exists_logAt hb hzero
  obtain ⟨l, hl, hlogx, hpowx⟩ := exists_logAt hlt hx
  have hcancel : ∀ a : Gf, a * genE ^ l = genE ^ k ↔ genE ^ (k + (1023 - l)) = a := by
    intro a
    have hsplit : genE ^ k = genE ^ (k + (1023 - l)) * genE ^ l := by
      rw [← pow_add, Nat.add_assoc, Nat.sub_add_cancel (by omega), pow_add, genE_pow_1023, mul_one]
    rw [hsplit, mul_left_inj' (genE_pow_ne_zero l)]
    exact eq_comm
  have hnat : (logAt b + (1023 - logAt (expAt p1 ^^^ expAt p2)) + (1023 - 997) * p) % 33 = 0 ↔
      (k + (1023 - l) + 26 * p) % 33 = 0 := by
    rw [hlogb, hlogx]
    omega
  rw [hnat, ← exists_value_at_iff, ← hsum, hpowx, hpowb]
  simp [hcancel, ErrorAt]

theorem secondError_eq_some : secondError length s0 s1 s2 p1 = some p2 ↔
      s2 ^^^ scaleBy s1 (logAt s1) p1 ≠ 0 ∧ s1 ^^^ scaleBy s0 (logAt s0) p1 ≠ 0 ∧
      ((logAt (s2 ^^^ scaleBy s1 (logAt s1) p1) - logAt (s1 ^^^ scaleBy s0 (logAt s0) p1) + 1023) % 1023).toNat = p2 ∧
      p2 < length ∧ p1 ≠ p2 ∧ s1 ^^^ scaleBy s0 (logAt s0) p2 ≠ 0 ∧
      (logAt (s1 ^^^ scaleBy s0 (logAt s0) p1) + (1023 - logAt (expAt p1 ^^^ expAt p2)) + (1023 - 997) * p2) % 33 = 0 ∧
      (logAt (s1 ^^^ scaleBy s0 (logAt s0) p2) + (1023 - logAt (expAt p1 ^^^ expAt p2)) + (1023 - 997) * p1) % 33 = 0
    := by
  unfold secondError
  dsimp only
  constructor
  · intro h
    split_ifs at h with hzero hplace hc hvalue
    rw [Option.some.injEq] at h
    rw [h] at hplace hc hvalue
    rw [not_or] at hzero hplace
    rw [not_or, not_not, not_not] at hvalue
    exact ⟨hzero.1, hzero.2, h, Nat.lt_of_not_le hplace.1, hplace.2, hc, hvalue.1, hvalue.2⟩
  · rintro ⟨ha, hb, hratio, hlt, hne, hc, hv2, hv1⟩
    rw [hratio, if_neg (not_or.mpr ⟨ha, hb⟩), if_neg (not_or.mpr ⟨Nat.not_le_of_lt hlt, hne⟩), if_neg hc,
      if_neg (not_or.mpr ⟨not_not.mpr hv2, not_not.mpr hv1⟩)]

/-- A round finds the second place exactly where two errors explain the syndromes. -/
theorem secondError_iff (hlength : length ≤ 1023) (h0 : s0 < 2 ^ 10) (h1 : s1 < 2 ^ 10) (h2 : s2 < 2 ^ 10)
    (hp1 : p1 < 1023) :
    secondError length s0 s1 s2 p1 = some p2 ↔
      p2 < length ∧ p1 ≠ p2 ∧ ∃ a1 a2, ErrorAt p1 a1 ∧ ErrorAt p2 a2 ∧
        TwoTerms (toGf s0) (toGf s1) (toGf s2) a1 a2 (genE ^ p1) (genE ^ p2) := by
  have hA := toGf_shifted h1 s2 p1
  have hB := toGf_shifted h0 s1 p1
  have hC := toGf_shifted h0 s1 p2
  have hAlt := shifted_lt h2 s1 p1
  have hBlt := shifted_lt h1 s0 p1
  have hClt := shifted_lt h1 s0 p2
  rw [secondError_eq_some]
  generalize s2 ^^^ scaleBy s1 (logAt s1) p1 = A at hA hAlt ⊢
  generalize s1 ^^^ scaleBy s0 (logAt s0) p1 = B at hB hBlt ⊢
  generalize s1 ^^^ scaleBy s0 (logAt s0) p2 = C at hC hClt ⊢
  constructor
  · rintro ⟨hAzero, hBzero, hratio, hp2, hne, hCzero, hv2, hv1⟩
    have hp2' : p2 < 1023 := Nat.lt_of_lt_of_le hp2 hlength
    obtain ⟨a2, he2, ha2⟩ := (logE_iff hBlt hBzero hp1 hp2' hne).mp hv2
    obtain ⟨a1, he1, ha1⟩ := (logE_iff hClt hCzero hp1 hp2' hne).mp hv1
    obtain ⟨k, hk, hlogA, hpowA⟩ := exists_logAt hAlt hAzero
    obtain ⟨l, hl, hlogB, hpowB⟩ := exists_logAt hBlt hBzero
    rw [hlogA, hlogB, logRatio_iff hk hp2', ← hpowA, ← hpowB, hA, hB] at hratio
    refine ⟨hp2, hne, a1, a2, he1, he2, (twoTerms_iff gf_two (genE_pow_add_ne_zero hp1 hp2' hne)).mpr ?_⟩
    exact ⟨ha2.trans hB, ha1.trans hC, hratio⟩
  · rintro ⟨hp2, hne, a1, a2, he1, he2, hterms⟩
    have hp2' : p2 < 1023 := Nat.lt_of_lt_of_le hp2 hlength
    have hsum := genE_pow_add_ne_zero hp1 hp2' hne
    obtain ⟨ha2, ha1, hratio⟩ := (twoTerms_iff gf_two hsum).mp hterms
    rw [← hB] at ha2
    rw [← hC] at ha1
    rw [← hA, ← hB] at hratio
    have hBgf : toGf B ≠ 0 := by
      rw [← ha2]
      exact mul_ne_zero he2.ne_zero hsum
    have hBzero : B ≠ 0 := mt (toGf_eq_zero_iff hBlt).mpr hBgf
    have hCzero : C ≠ 0 := by
      apply mt (toGf_eq_zero_iff hClt).mpr
      rw [← ha1]
      exact mul_ne_zero he1.ne_zero hsum
    have hAzero : A ≠ 0 := by
      apply mt (toGf_eq_zero_iff hAlt).mpr
      rw [← hratio]
      exact mul_ne_zero (genE_pow_ne_zero p2) hBgf
    obtain ⟨k, hk, hlogA, hpowA⟩ := exists_logAt hAlt hAzero
    obtain ⟨l, hl, hlogB, hpowB⟩ := exists_logAt hBlt hBzero
    have hp : (((k : Int) - l + 1023) % 1023).toNat = p2 := by
      rw [logRatio_iff hk hp2', ← hpowA, ← hpowB, hratio]
    have hv2 := (logE_iff hBlt hBzero hp1 hp2' hne).mpr ⟨a2, he2, ha2⟩
    have hv1 := (logE_iff hClt hCzero hp1 hp2' hne).mpr ⟨a1, he1, ha1⟩
    exact ⟨hAzero, hBzero, by rw [hlogA, hlogB]; exact hp, hp2, hne, hCzero, hv2, hv1⟩

/-- The test for a single error: the syndromes are in geometric progression. -/
theorem geometric_iff (h0 : s0 < 2 ^ 10) (h1 : s1 < 2 ^ 10) (h2 : s2 < 2 ^ 10) :
    (logAt s0 ≠ -1 ∧ logAt s1 ≠ -1 ∧ logAt s2 ≠ -1 ∧ (2 * logAt s1 - logAt s2 - logAt s0 + 2046) % 1023 = 0) ↔
      s0 ≠ 0 ∧ s1 ≠ 0 ∧ s2 ≠ 0 ∧ toGf s1 ^ 2 = toGf s0 * toGf s2 := by
  have hlog : ∀ {x}, x < 2 ^ 10 → (logAt x ≠ -1 ↔ x ≠ 0) := by
    intro x hx
    constructor
    · rintro h rfl
      exact h logAt_zero
    · intro h
      obtain ⟨k, -, hk, -⟩ := exists_logAt hx h
      omega
  rw [hlog h0, hlog h1, hlog h2]
  apply and_congr_right
  intro hz0
  apply and_congr_right
  intro hz1
  apply and_congr_right
  intro hz2
  obtain ⟨k0, hk0, hl0, hp0⟩ := exists_logAt h0 hz0
  obtain ⟨k1, hk1, hl1, hp1⟩ := exists_logAt h1 hz1
  obtain ⟨k2, hk2, hl2, hp2⟩ := exists_logAt h2 hz2
  rw [hl0, hl1, hl2, hp0, hp1, hp2, ← pow_mul, ← pow_add, genE_pow_eq_iff]
  omega

theorem OneError.iff_geometric (h0 : s0 < 2 ^ 10) (h1 : s1 < 2 ^ 10) (h2 : s2 < 2 ^ 10) (hp : p < 1023) :
    OneError s0 s1 s2 p ↔ (s0 ≠ 0 ∧ s1 ≠ 0 ∧ s2 ≠ 0 ∧ toGf s1 ^ 2 = toGf s0 * toGf s2) ∧
      ((logAt s1 - logAt s0 + 1023) % 1023).toNat = p ∧ (logAt s0 + (1023 - 997) * p) % 33 = 0 := by
  have hlogs : s0 ≠ 0 → s1 ≠ 0 → ((((logAt s1 - logAt s0 + 1023) % 1023).toNat = p ↔
      toGf s1 = toGf s0 * genE ^ p) ∧ ((logAt s0 + (1023 - 997) * p) % 33 = 0 ↔ ErrorAt p (toGf s0))) := by
    intro hz0 hz1
    obtain ⟨k0, hk0, hl0, hp0⟩ := exists_logAt h0 hz0
    obtain ⟨k1, hk1, hl1, hp1⟩ := exists_logAt h1 hz1
    have hnat : ((k0 : Int) + (1023 - 997) * p) % 33 = 0 ↔ (k0 + 26 * p) % 33 = 0 := by omega
    rw [hl0, hl1, logRatio_iff hk1 hp, hp0, hp1, hnat, ← exists_value_at_iff, mul_comm, ErrorAt]
    exact ⟨eq_comm, Iff.rfl⟩
  constructor
  · rintro ⟨hvalue, hfirst, hsecond⟩
    have hgf := hvalue.ne_zero
    have hz0 : s0 ≠ 0 := mt (toGf_eq_zero_iff h0).mpr hgf
    have hz1 : s1 ≠ 0 := by
      apply mt (toGf_eq_zero_iff h1).mpr
      rw [hfirst]
      exact mul_ne_zero hgf (genE_pow_ne_zero p)
    have hz2 : s2 ≠ 0 := by
      apply mt (toGf_eq_zero_iff h2).mpr
      rw [hsecond]
      exact mul_ne_zero hgf (pow_ne_zero 2 (genE_pow_ne_zero p))
    obtain ⟨hratio, hlogE⟩ := hlogs hz0 hz1
    refine ⟨⟨hz0, hz1, hz2, ?_⟩, hratio.mpr hfirst, hlogE.mpr hvalue⟩
    rw [hfirst, hsecond]
    ring
  · rintro ⟨⟨hz0, hz1, hz2, hsquare⟩, hratio, hlogE⟩
    obtain ⟨hratio', hlogE'⟩ := hlogs hz0 hz1
    have hfirst := hratio'.mp hratio
    refine ⟨hlogE'.mp hlogE, hfirst, ?_⟩
    have hgf : toGf s0 ≠ 0 := mt (toGf_eq_zero_iff h0).mp hz0
    apply mul_left_cancel₀ hgf
    rw [← hsquare, hfirst]
    ring
end

theorem synAt_encodings : synAt 0 (encodingConstant .bech32 ^^^ encodingConstant .bech32m) = expAt 1 ∧
      synAt 1 (encodingConstant .bech32 ^^^ encodingConstant .bech32m) = expAt 285 ∧
      synAt 2 (encodingConstant .bech32 ^^^ encodingConstant .bech32m) = expAt 553 := by
  decide +kernel

theorem encodings_places : ((List.range 88).all fun q => (List.range q).all fun p =>
    expAt (1 + p + q) ^^^ expAt (285 + p) ^^^ expAt (285 + q) != expAt 553 ||
      ((p, q) == (49, 80) || (p, q) == (57, 75))) = true := by
  decide +kernel

section
variable {length residue : Nat}

/-- What the search finds, by the syndromes. -/
inductive Found (length s0 s1 s2 : Nat) : List Nat → Prop where
  | one {p : Nat} (hp : p < length) (h : OneError s0 s1 s2 p) : Found length s0 s1 s2 [p]
  | two {p1 p2 : Nat} {a1 a2 : Gf} (hp1 : p1 < length) (hp2 : p2 < length) (hne : p1 ≠ p2) (h1 : ErrorAt p1 a1)
      (h2 : ErrorAt p2 a2)
      (h : TwoTerms (toGf s0) (toGf s1) (toGf s2) a1 a2 (genE ^ p1) (genE ^ p2)) :
      Found length s0 s1 s2 (if p2 < p1 then [p1, p2] else [p2, p1])

theorem found_errorPositions (hlength : length ≤ 1023) (hres : residue < 2 ^ 30)
    (hne : errorPositions length residue ≠ []) :
    Found length (synAt 0 residue) (synAt 1 residue) (synAt 2 residue) (errorPositions length residue) := by
  have h0 := synAt_lt 0 residue
  have h1 := synAt_lt 1 residue
  have h2 := synAt_lt 2 residue
  revert hne
  unfold errorPositions
  dsimp only
  rw [synAt_two hres]
  split
  · rename_i hgeo
    split
    · rename_i hp
      intro _
      have hone := (OneError.iff_geometric h0 h1 h2 (Nat.lt_of_lt_of_le hp.1 hlength)).mpr
        ⟨(geometric_iff h0 h1 h2).mp hgeo, rfl, hp.2⟩
      exact Found.one hp.1 hone
    · exact fun h => absurd rfl h
  · split
    · rename_i p1 p2 hsearch
      intro _
      obtain ⟨p, hp, hsecond⟩ := List.exists_of_findSome?_eq_some hsearch
      obtain ⟨q, hq, hpair⟩ := Option.map_eq_some_iff.mp hsecond
      cases hpair
      have hp1 := List.mem_range.mp hp
      obtain ⟨hp2, hne, a1, a2, he1, he2, hterms⟩ :=
        (secondError_iff hlength h0 h1 h2 (Nat.lt_of_lt_of_le hp1 hlength)).mp hq
      exact Found.two hp1 hp2 hne he1 he2 hterms
    · exact fun h => absurd rfl h

theorem errorPositions_ne_nil {positions : List Nat} (hlength : length ≤ 1023) (hres : residue < 2 ^ 30)
    (h : Found length (synAt 0 residue) (synAt 1 residue) (synAt 2 residue) positions) :
    errorPositions length residue ≠ [] := by
  have h0 := synAt_lt 0 residue
  have h1 := synAt_lt 1 residue
  have h2 := synAt_lt 2 residue
  have hs0 : syndrome residue &&& 0x3ff = synAt 0 residue := rfl
  have hs1 : (syndrome residue >>> 10) &&& 0x3ff = synAt 1 residue := rfl
  unfold errorPositions
  dsimp only
  rw [synAt_two hres, hs0, hs1]
  cases h with
  | @one p hp hone =>
    obtain ⟨hgeo, hratio, hlogE⟩ := (OneError.iff_geometric h0 h1 h2 (Nat.lt_of_lt_of_le hp hlength)).mp hone
    rw [if_pos ((geometric_iff h0 h1 h2).mpr hgeo), hratio, if_pos ⟨hp, hlogE⟩]
    exact List.cons_ne_nil _ _
  | @two p1 p2 a1 a2 hp1 hp2 hne he1 he2 hterms =>
    have hlt1 := Nat.lt_of_lt_of_le hp1 hlength
    have hlt2 := Nat.lt_of_lt_of_le hp2 hlength
    have hplaces : (genE : Gf) ^ p1 ≠ genE ^ p2 := fun heq => hne (genE_pow_inj hlt1 hlt2 heq)
    have hgeo := hterms.ratio_ne he1.ne_zero he2.ne_zero hplaces
    rw [if_neg fun hcond => hgeo ((geometric_iff h0 h1 h2).mp hcond).2.2.2]
    have hsecond := (secondError_iff hlength h0 h1 h2 hlt1).mpr ⟨hp2, hne, a1, a2, he1, he2, hterms⟩
    split
    · split <;> exact List.cons_ne_nil _ _
    · rename_i hsearch
      have hnone := List.findSome?_eq_none_iff.mp hsearch p1 (List.mem_range.mpr hp1)
      rw [hsecond] at hnone
      cases hnone

theorem length_errorPositions_le (length residue : Nat) : (errorPositions length residue).length ≤ 2 := by
  unfold errorPositions
  dsimp only
  repeat' split
  all_goals simp
end

theorem valueAt_set (x : Gf) {coeffs : List Nat} {p : Nat} (hp : p < coeffs.length) (hzero : coeffs.getD p 0 = 0)
    (e : Nat) : valueAt x (coeffs.set p e) = valueAt x coeffs + toGf e * x ^ p := by
  induction coeffs generalizing p with
  | nil => cases hp
  | cons v coeffs ih =>
    cases p with
    | zero =>
      rw [List.getD_cons_zero] at hzero
      simp [valueAt_cons, hzero, toGf_zero, pow_zero]
    | succ p =>
      rw [List.set_cons_succ, valueAt_cons, valueAt_cons, ih (Nat.lt_of_succ_lt_succ hp) hzero]
      ring

theorem Pattern.empty (length : Nat) : Pattern length [] (List.replicate length 0) := by
  refine ⟨List.length_replicate, ?_, ?_⟩
  · intro e he
    rw [List.eq_of_mem_replicate he]
    decide
  · intro i
    simp

section
variable {positions coeffs : List Nat}

theorem Pattern.set {length p e : Nat} (h : Pattern length positions coeffs)
    (hp : p < length) (hzero : e ≠ 0) (he : e < 32) : Pattern length (p :: positions) (coeffs.set p e) := by
  refine ⟨List.length_set.trans h.length_eq, ?_, ?_⟩
  · intro v hv
    rcases List.mem_or_eq_of_mem_set hv with hv | rfl
    · exact h.lt v hv
    · exact he
  · intro i
    have hp' : p < coeffs.length := by rwa [h.length_eq]
    rw [List.mem_cons, h.mem_iff, List.getD_eq_getElem?_getD, List.getD_eq_getElem?_getD]
    by_cases hi : i = p
    · subst hi
      rw [List.getElem?_set_self hp']
      exact iff_of_true (Or.inl rfl) hzero
    · rw [List.getElem?_set_ne (Ne.symm hi)]
      exact or_iff_right hi

theorem valueAt_replicate (x : Gf) (n : Nat) : valueAt x (List.replicate n 0) = 0 := by
  induction n with
  | zero => rfl
  | succ n ih => rw [List.replicate_succ, valueAt_cons, ih, zero_mul, toGf_zero, add_zero]

/-- The syndromes determine the residue of a pattern. -/
theorem eq_foldl_of_synAt {es : List Nat} {residue : Nat} (hes : ∀ e ∈ es, e < 32) (hres : residue < 2 ^ 30)
    (h : ∀ t < 3, toGf (synAt t residue) = valueAt (genE ^ (997 + t)) es.reverse) :
    es.foldl polyModStep 0 = residue := by
  have hlt := foldl_polyModStep_lt (Nat.two_pow_pos 30) hes
  have hxor : es.foldl polyModStep 0 ^^^ residue = 0 := by
    apply eq_zero_of_synAt (Nat.xor_lt_two_pow hlt hres)
    intro t ht
    have hsum : toGf (synAt t (es.foldl polyModStep 0 ^^^ residue)) = 0 := by
      rw [synAt_xor, toGf_xor, toGf_synAt_foldl ht hes, h t ht, Elem.add_self]
    exact (toGf_eq_zero_iff (synAt_lt _ _)).mp hsum
  exact Nat.xor_eq_zero_iff.mp hxor

theorem Pattern.foldl_eq {length residue : Nat} (h : Pattern length positions coeffs)
    (hres : residue < 2 ^ 30) (hvalue : ∀ t < 3, toGf (synAt t residue) = valueAt (genE ^ (997 + t)) coeffs) :
    coeffs.reverse.foldl polyModStep 0 = residue := by
  apply eq_foldl_of_synAt _ hres
  · rwa [List.reverse_reverse]
  · intro e he
    exact h.lt e (List.mem_reverse.mp he)

/-- What is found explains the residue: errors at exactly these places give it. -/
theorem Found.exists_pattern {length residue : Nat} {positions : List Nat} (hres : residue < 2 ^ 30)
    (h : Found length (synAt 0 residue) (synAt 1 residue) (synAt 2 residue) positions) :
    ∃ coeffs, Pattern length positions coeffs ∧ coeffs.reverse.foldl polyModStep 0 = residue := by
  have hstart := Pattern.empty length
  cases h with
  | @one p hp hone =>
    obtain ⟨e, hzero, he, hvalue⟩ := hone.value
    have hpattern := hstart.set hp hzero he
    refine ⟨_, hpattern, hpattern.foldl_eq hres ?_⟩
    have hsum : ∀ t, valueAt (genE ^ (997 + t)) ((List.replicate length 0).set p e) =
        toGf (synAt 0 residue) * (genE ^ p) ^ t := by
      intro t
      rw [valueAt_set _ (by rwa [hstart.length_eq]) (by simp), valueAt_replicate,
        zero_add, pow_split, ← mul_assoc, hvalue]
    intro t ht
    rw [hsum]
    interval_cases t
    · simp
    · simp [hone.first]
    · exact hone.second
  | @two p1 p2 a1 a2 hp1 hp2 hne he1 he2 hterms =>
    obtain ⟨e1, hzero1, hlt1, hvalue1⟩ := he1
    obtain ⟨e2, hzero2, hlt2, hvalue2⟩ := he2
    have hfirst := hstart.set hp1 hzero1 hlt1
    have hsecond := hfirst.set hp2 hzero2 hlt2
    have hfree : ((List.replicate length 0).set p1 e1).getD p2 0 = 0 := by
      simpa [Ne.symm hne] using (hfirst.mem_iff p2).not
    have hsum : ∀ t, valueAt (genE ^ (997 + t)) (((List.replicate length 0).set p1 e1).set p2 e2) =
        a1 * (genE ^ p1) ^ t + a2 * (genE ^ p2) ^ t := by
      intro t
      rw [valueAt_set _ (by rwa [hfirst.length_eq]) hfree,
        valueAt_set _ (by rwa [hstart.length_eq]) (by simp), valueAt_replicate,
        zero_add, pow_split, pow_split, ← mul_assoc, ← mul_assoc, hvalue1, hvalue2]
    have hpositions : ∀ i, i ∈ (if p2 < p1 then [p1, p2] else [p2, p1]) ↔ i ∈ [p2, p1] := by
      intro i
      split
      · exact List.Perm.mem_iff (List.Perm.swap p2 p1 [])
      · rfl
    refine ⟨_, ⟨hsecond.length_eq, hsecond.lt, fun i => (hpositions i).trans (hsecond.mem_iff i)⟩,
      hsecond.foldl_eq hres ?_⟩
    intro t ht
    rw [hsum]
    interval_cases t
    · rw [pow_zero, pow_zero, mul_one, mul_one]
      exact hterms.zeroth
    · rw [pow_one, pow_one]
      exact hterms.first
    · exact hterms.second

/-- One or two errors are found. -/
theorem found_of_pattern {es : List Nat} (hes : ∀ e ∈ es, e < 32) (hpos : 1 ≤ es.countP (· ≠ 0))
    (hle : es.countP (· ≠ 0) ≤ 2) :
    ∃ positions, Found es.length (synAt 0 (es.foldl polyModStep 0)) (synAt 1 (es.foldl polyModStep 0))
      (synAt 2 (es.foldl polyModStep 0)) positions := by
  have hvalue : ∀ t < 3, toGf (synAt t (es.foldl polyModStep 0)) = ∑ i ∈ support es.reverse,
      toGf (es.reverse.getD i 0) * genE ^ (997 * i) * (genE ^ i) ^ t := by
    intro t ht
    rw [toGf_synAt_foldl ht hes, valueAt_eq_sum_support]
    apply Finset.sum_congr rfl
    intro i _
    rw [pow_split, mul_assoc]
  have hplace : ∀ i ∈ support es.reverse,
      i < es.length ∧ ErrorAt i (toGf (es.reverse.getD i 0) * genE ^ (997 * i)) := by
    intro i hi
    obtain ⟨hlt, hne⟩ := mem_support.mp hi
    rw [List.length_reverse] at hlt
    exact ⟨hlt, _, hne, getD_lt (fun e he => hes e (List.mem_reverse.mp he)) i, rfl⟩
  have hcard := (card_support es.reverse).trans List.countP_reverse
  have h0 := hvalue 0 (by decide)
  have h1 := hvalue 1 (by decide)
  have h2 := hvalue 2 (by decide)
  have hcases : (support es.reverse).card = 1 ∨ (support es.reverse).card = 2 := by omega
  rcases hcases with hone | htwo
  · obtain ⟨p, hp⟩ := Finset.card_eq_one.mp hone
    rw [hp, Finset.sum_singleton] at h0 h1 h2
    obtain ⟨hlt, herror⟩ := hplace p (by rw [hp]; exact Finset.mem_singleton_self p)
    rw [pow_zero, mul_one] at h0
    rw [pow_one, ← h0] at h1
    rw [← h0] at h2 herror
    exact ⟨_, Found.one hlt ⟨herror, h1, h2⟩⟩
  · obtain ⟨p1, p2, hne, hp⟩ := Finset.card_eq_two.mp htwo
    rw [hp, Finset.sum_pair hne] at h0 h1 h2
    obtain ⟨hlt1, herror1⟩ := hplace p1 (by rw [hp]; exact Finset.mem_insert_self p1 _)
    obtain ⟨hlt2, herror2⟩ := hplace p2 (by rw [hp]; exact Finset.mem_insert_of_mem (Finset.mem_singleton_self p2))
    rw [pow_zero, pow_zero, mul_one, mul_one] at h0
    rw [pow_one, pow_one] at h1
    exact ⟨_, Found.two hlt1 hlt2 hne herror1 herror2 ⟨h0, h1, h2⟩⟩
end

theorem add_pow_of_expAt {i j l : Nat} (hi : i < 1023) (hj : j < 1023) (hl : l < 1023)
    (h : expAt i ^^^ expAt j = expAt l) : genE ^ i + genE ^ j = genE ^ l := by
  rw [← toGf_expAt_of_lt hi, ← toGf_expAt_of_lt hj, ← toGf_xor, h, toGf_expAt_of_lt hl]

theorem mod_of_errorAt {q l m : Nat} {a : Gf} (h : ErrorAt q a) (heq : a * genE ^ l = genE ^ m) :
    (m + 33 * (l + 997 * q) - (l + 997 * q)) % 33 = 0 := by
  obtain ⟨e, hzero, he, rfl⟩ := h
  obtain ⟨k, -, -, hpow⟩ := exists_logAt (Nat.lt_trans he (by decide)) hzero
  have hk := (exists_value_iff k).mp ⟨e, hzero, he, hpow⟩
  rw [hpow, ← pow_add, ← pow_add, genE_pow_eq_iff] at heq
  omega

theorem not_twoTerms_encodings {p q : Nat} {a1 a2 : Gf} (hpq : p < q) (hq : q < 88) (h2 : ErrorAt q a2) :
    ¬TwoTerms (genE ^ 1) (genE ^ 285) (genE ^ 553) a1 a2 (genE ^ p) (genE ^ q) := by
  intro hterms
  obtain ⟨ha2, -, hratio⟩ := (twoTerms_iff gf_two (genE_pow_add_ne_zero (by omega) (by omega) (by omega))).mp hterms
  have hplace : expAt (1 + p + q) ^^^ expAt (285 + p) ^^^ expAt (285 + q) = expAt 553 := by
    have hlt : ∀ {k}, k < 1023 → expAt k < 2 ^ 10 := expAt_lt
    apply toGf_inj (Nat.xor_lt_two_pow (Nat.xor_lt_two_pow (hlt (by omega)) (hlt (by omega))) (hlt (by omega)))
      (hlt (by decide))
    rw [toGf_xor, toGf_xor, toGf_expAt_of_lt (by omega), toGf_expAt_of_lt (by omega), toGf_expAt_of_lt (by omega),
      toGf_expAt_of_lt (by decide)]
    linear_combination hratio + genE ^ 285 * genE ^ p * gf_two
  have hpair := List.all_eq_true.mp (List.all_eq_true.mp encodings_places q (List.mem_range.mpr hq)) p
    (List.mem_range.mpr hpq)
  rw [← pow_add] at ha2
  simp only [hplace, bne_self_eq_false, Bool.false_or, Bool.or_eq_true, beq_iff_eq, Prod.mk.injEq] at hpair
  rcases hpair with ⟨rfl, rfl⟩ | ⟨rfl, rfl⟩
  · rw [add_pow_of_expAt (by decide) (by decide) (by decide : 543 < 1023) (by decide +kernel),
      add_pow_of_expAt (by decide) (by decide) (by decide : 474 < 1023) (by decide +kernel)] at ha2
    have h := mod_of_errorAt h2 ha2
    omega
  · rw [add_pow_of_expAt (by decide) (by decide) (by decide : 38 < 1023) (by decide +kernel),
      add_pow_of_expAt (by decide) (by decide) (by decide : 517 < 1023) (by decide +kernel)] at ha2
    have h := mod_of_errorAt h2 ha2
    omega

/-- One or two errors never lead from one encoding to the other. -/
theorem foldl_polyModStep_ne_encodings {es : List Nat} (hes : ∀ e ∈ es, e < 32) (hlen : es.length ≤ 88)
    (hpos : 1 ≤ es.countP (· ≠ 0)) (hle : es.countP (· ≠ 0) ≤ 2) :
    es.foldl polyModStep 0 ≠ encodingConstant .bech32 ^^^ encodingConstant .bech32m := by
  intro heq
  obtain ⟨positions, hfound⟩ := found_of_pattern hes hpos hle
  obtain ⟨h0, h1, h2⟩ := synAt_encodings
  rw [heq, h0, h1, h2] at hfound
  have hp0 := toGf_expAt_of_lt (by decide : 1 < 1023)
  have hp1 := toGf_expAt_of_lt (by decide : 285 < 1023)
  have hp2 := toGf_expAt_of_lt (by decide : 553 < 1023)
  cases hfound with
  | @one p hp hone =>
    have hfirst := hone.first
    rw [hp0, hp1, ← pow_add, genE_pow_eq_iff] at hfirst
    omega
  | @two p1 p2 a1 a2 hlt1 hlt2 hne he1 he2 hterms =>
    rw [hp0, hp1, hp2] at hterms
    rcases Nat.lt_or_gt_of_ne hne with hlt | hlt
    · exact not_twoTerms_encodings hlt (by omega) he2 hterms
    · exact not_twoTerms_encodings hlt (by omega) he1 hterms.swap

end Byze
