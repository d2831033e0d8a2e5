import Byze.Lib.BitGroups
import Byze.Serialize

/-! The Bech32 and Bech32m strings of values of five bits: the checksum over a
human-readable part and values, and the conversion between groups of bits. -/

namespace Byze
open BitGroups

section

/-- The groups that are complete, and the bits that are left. The first argument
bounds the rounds, and there are as many as there are bits at most. -/
def drainBits (tobits acc : Nat) : Nat → Nat → List Nat × Nat
  | 0, bits => ([], bits)
  | fuel + 1, bits =>
    if tobits ≤ bits then
      let rest := drainBits tobits acc fuel (bits - tobits)
      (((acc >>> (bits - tobits)) &&& (2 ^ tobits - 1)) :: rest.1, rest.2)
    else ([], bits)

structure ConvertState where
  acc : Nat
  bits : Nat
  out : List Nat

def convertStep (frombits tobits : Nat) (s : ConvertState) (v : Nat) : ConvertState :=
  let acc := ((s.acc <<< frombits) ||| v) &&& (2 ^ (frombits + tobits - 1) - 1)
  let drained := drainBits tobits acc (s.bits + frombits) (s.bits + frombits)
  ⟨acc, drained.2, s.out ++ drained.1⟩

def convertBits (frombits tobits : Nat) (pad : Bool) (values : List Nat) : List Nat × Bool :=
  let s := values.foldl (convertStep frombits tobits) ⟨0, 0, []⟩
  let rest := (s.acc <<< (tobits - s.bits)) &&& (2 ^ tobits - 1)
  if pad then (if s.bits ≠ 0 then s.out ++ [rest] else s.out, true)
  else (s.out, !(decide (frombits ≤ s.bits) || decide (rest ≠ 0)))

variable {frombits tobits : Nat}

theorem drainBits_spec (acc : Nat) (hto : 0 < tobits) {fuel bits : Nat} (hfuel : bits ≤ fuel) :
    (drainBits tobits acc fuel bits).2 < tobits ∧ (∀ d ∈ (drainBits tobits acc fuel bits).1, d < 2 ^ tobits) ∧
      concat tobits (drainBits tobits acc fuel bits).1 ++
        BitGroups.bits (drainBits tobits acc fuel bits).2 acc = BitGroups.bits bits acc := by
  induction fuel generalizing bits with
  | zero =>
    obtain rfl : bits = 0 := by omega
    exact ⟨hto, by simp [drainBits], rfl⟩
  | succ fuel ih =>
    by_cases hle : tobits ≤ bits
    · obtain ⟨hlt, hdigits, hconcat⟩ := ih (show bits - tobits ≤ fuel by omega)
      simp only [drainBits, hle, if_true]
      refine ⟨hlt, ?_, ?_⟩
      · intro d hd
        rcases List.mem_cons.mp hd with rfl | hd
        · rw [Nat.and_two_pow_sub_one_eq_mod]
          exact Nat.mod_lt _ (Nat.two_pow_pos _)
        · exact hdigits d hd
      · have hsplit : BitGroups.bits bits acc =
            BitGroups.bits tobits (acc >>> (bits - tobits)) ++ BitGroups.bits (bits - tobits) acc := by
          rw [← bits_add]
          congr 1
          omega
        rw [concat_cons, bits_and_two_pow_sub_one _ le_rfl, List.append_assoc, hconcat, hsplit]
    · simp only [drainBits, hle, if_false]
      exact ⟨by omega, by simp, rfl⟩

/-- The values so far are what was put out and the bits that are left. -/
structure Converts (frombits tobits : Nat) (values : List Nat) (s : ConvertState) : Prop where
  bits_lt : s.bits < tobits
  out_lt : ∀ d ∈ s.out, d < 2 ^ tobits
  concat_eq : concat tobits s.out ++ bits s.bits s.acc = concat frombits values

variable {values : List Nat}

theorem Converts.step {s : ConvertState} {v : Nat} (h : Converts frombits tobits values s)
    (hv : v < 2 ^ frombits) :
    Converts frombits tobits (values ++ [v]) (convertStep frombits tobits s v) := by
  have hbits := h.bits_lt
  obtain ⟨hlt, hdigits, hconcat⟩ := drainBits_spec
    (((s.acc <<< frombits) ||| v) &&& (2 ^ (frombits + tobits - 1) - 1)) (Nat.zero_lt_of_lt hbits)
    (le_refl (s.bits + frombits))
  refine ⟨hlt, ?_, ?_⟩
  · intro d hd
    rcases List.mem_append.mp hd with hd | hd
    · exact h.out_lt d hd
    · exact hdigits d hd
  · have hacc : BitGroups.bits (s.bits + frombits)
        (((s.acc <<< frombits) ||| v) &&& (2 ^ (frombits + tobits - 1) - 1)) =
          BitGroups.bits s.bits s.acc ++ BitGroups.bits frombits v := by
      rw [bits_and_two_pow_sub_one _ (by omega), shiftLeft_or_eq_xor hv, bits_shiftLeft_xor hv]
    simp only [convertStep, concat_append, List.append_assoc, hconcat, hacc, concat_cons, concat_nil,
      List.append_nil]
    rw [← List.append_assoc, h.concat_eq]

theorem converts_foldl (hto : 0 < tobits) (hvalues : ∀ v ∈ values, v < 2 ^ frombits) :
    Converts frombits tobits values (values.foldl (convertStep frombits tobits) ⟨0, 0, []⟩) := by
  induction values using List.reverseRecOn with
  | nil => exact ⟨hto, by simp, rfl⟩
  | append_singleton values v ih =>
    rw [List.foldl_append]
    refine Converts.step (ih fun u hu => hvalues u (List.mem_append_left _ hu)) ?_
    exact hvalues v (List.mem_append_right _ (List.mem_singleton_self v))

theorem bits_padding (acc : Nat) {bits : Nat} (h : bits ≤ tobits) :
    BitGroups.bits tobits ((acc <<< (tobits - bits)) &&& (2 ^ tobits - 1)) =
      BitGroups.bits bits acc ++ List.replicate (tobits - bits) false := by
  have hsplit := bits_shiftLeft_xor (j := bits) (k := tobits - bits) (n := acc) (Nat.two_pow_pos _)
  rw [Nat.xor_zero, bits_zero, Nat.add_sub_cancel' h] at hsplit
  rw [bits_and_two_pow_sub_one _ le_rfl, hsplit]

theorem padding_eq_zero_iff {acc bits : Nat} (h : bits ≤ tobits) :
    (acc <<< (tobits - bits)) &&& (2 ^ tobits - 1) = 0 ↔
      BitGroups.bits bits acc = List.replicate bits false := by
  have hlt : (acc <<< (tobits - bits)) &&& (2 ^ tobits - 1) < 2 ^ tobits := by
    rw [Nat.and_two_pow_sub_one_eq_mod]
    exact Nat.mod_lt _ (Nat.two_pow_pos _)
  have hpad := bits_padding acc h
  constructor
  · intro hzero
    rw [hzero, bits_zero] at hpad
    have hsplit : List.replicate tobits false =
        List.replicate bits false ++ List.replicate (tobits - bits) false := by
      rw [List.replicate_append_replicate, Nat.add_sub_cancel' h]
    exact (List.append_inj (hsplit.symm.trans hpad) (by simp)).1.symm
  · intro hbits
    refine bits_injective hlt (Nat.two_pow_pos _) ?_
    rw [hpad, hbits, bits_zero, List.replicate_append_replicate, Nat.add_sub_cancel' h]

theorem convertBits_pad (hto : 0 < tobits) (hvalues : ∀ v ∈ values, v < 2 ^ frombits) :
    (∀ d ∈ (convertBits frombits tobits true values).1, d < 2 ^ tobits) ∧
      ∃ k < tobits, concat tobits (convertBits frombits tobits true values).1 =
        concat frombits values ++ List.replicate k false := by
  have h := converts_foldl hto hvalues
  simp only [convertBits]
  generalize values.foldl (convertStep frombits tobits) ⟨0, 0, []⟩ = s at h
  have hbits := h.bits_lt
  by_cases hzero : s.bits = 0
  · simp only [hzero]
    refine ⟨h.out_lt, 0, hto, ?_⟩
    have hconcat := h.concat_eq
    rw [hzero] at hconcat
    simpa [bits] using hconcat
  · simp only [ne_eq, hzero, not_false_eq_true, if_true]
    constructor
    · intro d hd
      rcases List.mem_append.mp hd with hd | hd
      · exact h.out_lt d hd
      · obtain rfl := List.mem_singleton.mp hd
        rw [Nat.and_two_pow_sub_one_eq_mod]
        exact Nat.mod_lt _ (Nat.two_pow_pos _)
    · refine ⟨tobits - s.bits, by omega, ?_⟩
      rw [concat_append, concat_cons, concat_nil, List.append_nil, bits_padding s.acc hbits.le,
        ← List.append_assoc, h.concat_eq]

theorem convertBits_noPad (hto : 0 < tobits) (hvalues : ∀ v ∈ values, v < 2 ^ frombits) :
    ∃ k rest, k < tobits ∧ rest.length = k ∧
      (∀ d ∈ (convertBits frombits tobits false values).1, d < 2 ^ tobits) ∧
      concat tobits (convertBits frombits tobits false values).1 ++ rest = concat frombits values ∧
      ((convertBits frombits tobits false values).2 = true ↔
        k < frombits ∧ rest = List.replicate k false) := by
  have h := converts_foldl hto hvalues
  simp only [convertBits]
  generalize values.foldl (convertStep frombits tobits) ⟨0, 0, []⟩ = s at h
  refine ⟨s.bits, bits s.bits s.acc, h.bits_lt, bits_length _ _, h.out_lt, h.concat_eq, ?_⟩
  rw [← padding_eq_zero_iff h.bits_lt.le]
  simp

theorem mul_add_inj {k q q' r r' : Nat} (hr : r < k) (hr' : r' < k) (h : k * q + r = k * q' + r') :
    q = q' ∧ r = r' := by
  have hpos : 0 < k := Nat.zero_lt_of_lt hr
  have hq : q = q' := by
    have hdiv := congrArg (· / k) h
    simpa [Nat.mul_add_div hpos, Nat.div_eq_of_lt hr, Nat.div_eq_of_lt hr'] using hdiv
  subst hq
  exact ⟨rfl, Nat.add_left_cancel h⟩

theorem convertBits_unpad_iff {a b : Nat} (hb : 0 < b) (hab : b ≤ a) {values groups : List Nat}
    (hvalues : ∀ v ∈ values, v < 2 ^ a) (hgroups : ∀ d ∈ groups, d < 2 ^ b) :
    convertBits b a false groups = (values, true) ↔ groups = (convertBits a b true values).1 := by
  have ha : 0 < a := lt_of_lt_of_le hb hab
  obtain ⟨hpadded, k, hk, hpad⟩ := convertBits_pad hb hvalues
  constructor
  · intro h
    obtain ⟨j, rest, hj, hlength, -, hconcat, hok⟩ := convertBits_noPad ha hgroups
    rw [h] at hconcat hok
    obtain ⟨hjb, rfl⟩ := hok.mp rfl
    have hlengths : b * groups.length + k = b * (convertBits a b true values).1.length + j := by
      have h1 := congrArg List.length hconcat
      have h2 := congrArg List.length hpad
      simp only [List.length_append, concat_length, List.length_replicate] at h1 h2
      omega
    obtain ⟨-, rfl⟩ := mul_add_inj hk hjb hlengths
    exact concat_injective hb hgroups hpadded (by rw [← hconcat, hpad])
  · rintro rfl
    obtain ⟨j, rest, hj, hlength, hout, hconcat, hok⟩ := convertBits_noPad ha hpadded
    rw [hpad] at hconcat
    have hlengths : a * (convertBits b a false (convertBits a b true values).1).1.length + j =
        a * values.length + k := by
      have h1 := congrArg List.length hconcat
      simpa only [List.length_append, concat_length, List.length_replicate, hlength] using h1
    obtain ⟨hsame, rfl⟩ := mul_add_inj hj (lt_of_lt_of_le hk hab) hlengths
    obtain ⟨hleft, hright⟩ := List.append_inj hconcat (by simp [hsame])
    refine Prod.ext (concat_injective ha hout hvalues hleft) ?_
    exact hok.mpr ⟨hk, hright⟩
end

section

inductive Encoding where
  | invalid
  | bech32
  | bech32m
  deriving DecidableEq, Repr

def encodingConstant (encoding : Encoding) : Nat :=
  if encoding = .bech32 then 1 else 0x2bc830a3

def checksumSize : Nat := 6

def polyModStep (c v : Nat) : Nat :=
  let c0 := c >>> 25
  let c := ((c &&& 0x1ffffff) <<< 5) ^^^ v
  let c := if c0 &&& 1 ≠ 0 then c ^^^ 0x3b6a57b2 else c
  let c := if c0 &&& 2 ≠ 0 then c ^^^ 0x26508e6d else c
  let c := if c0 &&& 4 ≠ 0 then c ^^^ 0x1ea119fa else c
  let c := if c0 &&& 8 ≠ 0 then c ^^^ 0x3d4233dd else c
  if c0 &&& 16 ≠ 0 then c ^^^ 0x2a1462b3 else c

def polyMod (v : List Nat) : Nat := v.foldl polyModStep 1

def preparePolynomialCoefficients (hrp : Bytes) (values : List Nat) : List Nat :=
  hrp.map (fun c => c.toNat >>> 5) ++ [0] ++ hrp.map (fun c => c.toNat &&& 0x1f) ++ values

def verifyChecksum (hrp : Bytes) (values : List Nat) : Encoding :=
  let check := polyMod (preparePolynomialCoefficients hrp values)
  if check = encodingConstant .bech32 then .bech32
  else if check = encodingConstant .bech32m then .bech32m
  else .invalid

def checksumValues (mod : Nat) : List Nat :=
  (List.range checksumSize).map fun i => (mod >>> (5 * (5 - i))) &&& 31

def createChecksum (encoding : Encoding) (hrp : Bytes) (values : List Nat) : List Nat :=
  let enc := preparePolynomialCoefficients hrp values ++ List.replicate checksumSize 0
  checksumValues (polyMod enc ^^^ encodingConstant encoding)

def generatorTerm (c g i : Nat) : Nat := if c.testBit i then g else 0

theorem generatorTerm_xor (c d g i : Nat) :
    generatorTerm (c ^^^ d) g i = generatorTerm c g i ^^^ generatorTerm d g i := by
  unfold generatorTerm
  rw [Nat.testBit_xor]
  cases c.testBit i <;> cases d.testBit i <;> simp

theorem generatorTerm_lt {c g i n : Nat} (h : g < 2 ^ n) : generatorTerm c g i < 2 ^ n := by
  unfold generatorTerm
  split
  · exact h
  · exact Nat.two_pow_pos n

theorem ite_and_two_pow (c x g i : Nat) :
    (if c >>> 25 &&& 2 ^ i ≠ 0 then x ^^^ g else x) = x ^^^ generatorTerm c g (25 + i) := by
  have hbit : c >>> 25 &&& 2 ^ i ≠ 0 ↔ c.testBit (25 + i) = true := by
    simp [Nat.and_two_pow]
  unfold generatorTerm
  by_cases h : c.testBit (25 + i) = true
  · simp [if_pos (hbit.mpr h), h]
  · simp [if_neg (mt hbit.mp h), h]

theorem polyModStep_eq (c v : Nat) :
    polyModStep c v = ((c &&& 0x1ffffff) <<< 5) ^^^ v ^^^ generatorTerm c 0x3b6a57b2 25 ^^^
      generatorTerm c 0x26508e6d 26 ^^^ generatorTerm c 0x1ea119fa 27 ^^^
      generatorTerm c 0x3d4233dd 28 ^^^ generatorTerm c 0x2a1462b3 29 := by
  have h0 := fun x => ite_and_two_pow c x 0x3b6a57b2 0
  have h1 := fun x => ite_and_two_pow c x 0x26508e6d 1
  have h2 := fun x => ite_and_two_pow c x 0x1ea119fa 2
  have h3 := fun x => ite_and_two_pow c x 0x3d4233dd 3
  have h4 := fun x => ite_and_two_pow c x 0x2a1462b3 4
  norm_num only at h0 h1 h2 h3 h4
  simp only [polyModStep, h0, h1, h2, h3, h4]

/-- The checksum is linear: what is added to the values adds to the result. -/
theorem polyModStep_xor (c d v u : Nat) :
    polyModStep (c ^^^ d) (v ^^^ u) = polyModStep c v ^^^ polyModStep d u := by
  simp only [polyModStep_eq, generatorTerm_xor, Nat.and_xor_distrib_right, Nat.shiftLeft_xor_distrib]
  ac_rfl

theorem polyModStep_lt {c v : Nat} (hv : v < 32) : polyModStep c v < 2 ^ 30 := by
  have hshift : (c &&& 0x1ffffff) <<< 5 < 2 ^ 30 := by
    have hand : c &&& 0x1ffffff ≤ 0x1ffffff := Nat.and_le_right
    omega
  rw [polyModStep_eq]
  refine Nat.xor_lt_two_pow (Nat.xor_lt_two_pow (Nat.xor_lt_two_pow (Nat.xor_lt_two_pow
    (Nat.xor_lt_two_pow (Nat.xor_lt_two_pow hshift (by omega)) ?_) ?_) ?_) ?_) ?_
  all_goals exact generatorTerm_lt (by norm_num)

theorem polyModStep_of_lt {c v : Nat} (hc : c < 2 ^ 25) : polyModStep c v = (c <<< 5) ^^^ v := by
  have hbit : ∀ g i, 25 ≤ i → generatorTerm c g i = 0 := by
    intro g i hi
    have hlt : c < 2 ^ i := lt_of_lt_of_le hc (Nat.pow_le_pow_right (by norm_num) hi)
    simp [generatorTerm, Nat.testBit_lt_two_pow hlt]
  have hand : c &&& 0x1ffffff = c := by
    have h := Nat.and_two_pow_sub_one_eq_mod c 25
    rw [h]
    exact Nat.mod_eq_of_lt hc
  rw [polyModStep_eq, hand, hbit _ 25 (by norm_num), hbit _ 26 (by norm_num), hbit _ 27 (by norm_num),
    hbit _ 28 (by norm_num), hbit _ 29 (by norm_num)]
  simp

theorem foldl_polyModStep_xor (c d : Nat) (v : List Nat) : v.foldl polyModStep (c ^^^ d) =
      (List.replicate v.length 0).foldl polyModStep c ^^^ v.foldl polyModStep d := by
  induction v generalizing c d with
  | nil => rfl
  | cons x v ih =>
    have hstep : polyModStep (c ^^^ d) x = polyModStep c 0 ^^^ polyModStep d x := by
      simp [← polyModStep_xor]
    simp only [List.foldl_cons, List.length_cons, List.replicate_succ, hstep, ih]

variable {v : List Nat}

theorem foldl_polyModStep_lt {c : Nat} (hc : c < 2 ^ 30) (hv : ∀ x ∈ v, x < 32) :
    v.foldl polyModStep c < 2 ^ 30 := by
  induction v generalizing c with
  | nil => exact hc
  | cons x v ih =>
    exact ih (polyModStep_lt (hv x List.mem_cons_self)) fun y hy => hv y (List.mem_cons_of_mem x hy)

theorem bits_foldl_polyModStep {c k : Nat} (hk : k + v.length ≤ 6) (hc : c < 2 ^ (5 * k))
    (hv : ∀ x ∈ v, x < 32) :
    bits (5 * (k + v.length)) (v.foldl polyModStep c) = bits (5 * k) c ++ concat 5 v := by
  induction v generalizing c k with
  | nil => simp
  | cons x v ih =>
    have hx : x < 2 ^ 5 := hv x List.mem_cons_self
    rw [List.length_cons] at hk
    have hsmall : c < 2 ^ 25 := lt_of_lt_of_le hc (Nat.pow_le_pow_right (by norm_num) (by omega))
    have hstep := polyModStep_of_lt (v := x) hsmall
    have hnext : polyModStep c x < 2 ^ (5 * (k + 1)) := by
      rw [hstep]
      refine Nat.xor_lt_two_pow ?_ (lt_of_lt_of_le hx (Nat.pow_le_pow_right (by norm_num) (by omega)))
      rw [Nat.shiftLeft_eq, Nat.mul_add, Nat.pow_add]
      exact Nat.mul_lt_mul_of_pos_right hc (by norm_num)
    have hrest := ih (k := k + 1) (by omega) hnext fun y hy => hv y (List.mem_cons_of_mem x hy)
    rw [List.foldl_cons, List.length_cons, Nat.add_comm v.length 1, ← Nat.add_assoc, hrest, hstep,
      Nat.mul_add, bits_shiftLeft_xor hx, concat_cons, List.append_assoc]

theorem concat_checksumValues (mod : Nat) : concat 5 (checksumValues mod) = bits 30 mod := by
  have hand := fun n => bits_and_two_pow_sub_one (j := 5) (k := 5) n le_rfl
  have h25 := bits_add 5 25 mod
  have h20 := bits_add 5 20 mod
  have h15 := bits_add 5 15 mod
  have h10 := bits_add 5 10 mod
  have h5 := bits_add 5 5 mod
  norm_num only at hand h25 h20 h15 h10 h5
  rw [h25, h20, h15, h10, h5]
  simp [checksumValues, checksumSize, List.range_succ, hand]

theorem checksumValues_lt (mod : Nat) : ∀ d ∈ checksumValues mod, d < 32 := by
  intro d hd
  obtain ⟨i, -, rfl⟩ := List.mem_map.mp hd
  exact Nat.lt_succ_of_le Nat.and_le_right

theorem createChecksum_length (encoding : Encoding) (hrp : Bytes) (values : List Nat) :
    (createChecksum encoding hrp values).length = 6 := by
  simp [createChecksum, checksumValues, checksumSize]

theorem encodingConstant_lt (encoding : Encoding) : encodingConstant encoding < 2 ^ 30 := by
  cases encoding <;> decide

theorem preparePolynomialCoefficients_append (hrp : Bytes) (values checksum : List Nat) :
    preparePolynomialCoefficients hrp (values ++ checksum) =
      preparePolynomialCoefficients hrp values ++ checksum := by
  simp [preparePolynomialCoefficients]

theorem polyMod_lt (hv : ∀ x ∈ v, x < 32) : polyMod v < 2 ^ 30 :=
  foldl_polyModStep_lt (by norm_num) hv

theorem preparePolynomialCoefficients_lt (hrp : Bytes) {values : List Nat} (hvalues : ∀ v ∈ values, v < 32) :
    ∀ v ∈ preparePolynomialCoefficients hrp values, v < 32 := by
  intro v hv
  simp only [preparePolynomialCoefficients, List.mem_append, List.mem_map, List.mem_singleton] at hv
  rcases hv with ((⟨c, -, rfl⟩ | rfl) | ⟨c, -, rfl⟩) | hv
  · have hc := c.toNat_lt
    omega
  · norm_num
  · exact Nat.lt_succ_of_le Nat.and_le_right
  · exact hvalues v hv

/-- Exactly one checksum of six values gives an encoding's constant. -/
theorem polyMod_append_iff (encoding : Encoding) (hrp : Bytes) {values checksum : List Nat}
    (hvalues : ∀ v ∈ values, v < 32) (hlength : checksum.length = 6) (hchecksum : ∀ d ∈ checksum, d < 32) :
    polyMod (preparePolynomialCoefficients hrp (values ++ checksum)) = encodingConstant encoding ↔
      checksum = createChecksum encoding hrp values := by
  have hcoefficients := preparePolynomialCoefficients_lt hrp hvalues
  rw [preparePolynomialCoefficients_append, createChecksum]
  generalize preparePolynomialCoefficients hrp values = enc at hcoefficients ⊢
  have hzeros : ∀ x ∈ enc ++ List.replicate checksumSize 0, x < 32 := by
    intro x hx
    rcases List.mem_append.mp hx with hx | hx
    · exact hcoefficients x hx
    · obtain rfl := List.eq_of_mem_replicate hx
      norm_num
  have hsplit : polyMod (enc ++ checksum) =
      polyMod (enc ++ List.replicate checksumSize 0) ^^^ checksum.foldl polyModStep 0 := by
    unfold polyMod
    rw [List.foldl_append, List.foldl_append, ← Nat.xor_zero (List.foldl polyModStep 1 enc),
      foldl_polyModStep_xor, hlength, Nat.xor_zero]
    rfl
  have hbits : bits 30 (checksum.foldl polyModStep 0) = concat 5 checksum := by
    have h := bits_foldl_polyModStep (c := 0) (k := 0) (v := checksum) (by omega) (by norm_num) hchecksum
    rw [hlength] at h
    simpa [bits] using h
  have hmod := Nat.xor_lt_two_pow (polyMod_lt hzeros) (encodingConstant_lt encoding)
  rw [hsplit]
  generalize polyMod (enc ++ List.replicate checksumSize 0) = residue at hmod ⊢
  have hfold : checksum.foldl polyModStep 0 < 2 ^ 30 := foldl_polyModStep_lt (by norm_num) hchecksum
  calc residue ^^^ checksum.foldl polyModStep 0 = encodingConstant encoding
      ↔ checksum.foldl polyModStep 0 = residue ^^^ encodingConstant encoding := by
        constructor
        · rintro h
          simp [← h]
        · intro h
          simp [h]
    _ ↔ concat 5 checksum = bits 30 (residue ^^^ encodingConstant encoding) := by
        rw [← hbits]
        exact ⟨congrArg _, bits_injective hfold hmod⟩
    _ ↔ checksum = checksumValues (residue ^^^ encodingConstant encoding) := by
        rw [← concat_checksumValues]
        exact ⟨concat_injective (by norm_num) hchecksum (checksumValues_lt _), congrArg _⟩
end

section

def asciiBytes (s : String) : Bytes := s.toList.map fun c => UInt8.ofNat c.toNat

def charset : Bytes := asciiBytes "qpzry9x8gf2tvdw0s3jn54khce6mua7l"

def charsetRev : List Int := [
  -1,-1,-1,-1,-1,-1,-1,-1,-1,-1,-1,-1,-1,-1,-1,-1,
  -1,-1,-1,-1,-1,-1,-1,-1,-1,-1,-1,-1,-1,-1,-1,-1,
  -1,-1,-1,-1,-1,-1,-1,-1,-1,-1,-1,-1,-1,-1,-1,-1,
  15,-1,10,17,21,20,26,30,7,5,-1,-1,-1,-1,-1,-1,
  -1,29,-1,24,13,25,9,8,23,-1,18,22,31,27,19,-1,
  1,0,3,16,11,28,12,14,6,4,2,-1,-1,-1,-1,-1,
  -1,29,-1,24,13,25,9,8,23,-1,18,22,31,27,19,-1,
  1,0,3,16,11,28,12,14,6,4,2,-1,-1,-1,-1,-1]

def separator : UInt8 := 49

def charLimit : Nat := 90

def isLowerCase (c : UInt8) : Bool := decide (97 ≤ c.toNat ∧ c.toNat ≤ 122)

def isUpperCase (c : UInt8) : Bool := decide (65 ≤ c.toNat ∧ c.toNat ≤ 90)

def lowerCase (c : UInt8) : UInt8 := if isUpperCase c then c - 65 + 97 else c

/-- The indices of the characters that are not allowed where they stand. -/
def checkCharacters (i : Nat) (lower upper : Bool) : Bytes → List Nat
  | [] => []
  | c :: str =>
    if isLowerCase c then
      if upper then i :: checkCharacters (i + 1) lower upper str
      else checkCharacters (i + 1) true upper str
    else if isUpperCase c then
      if lower then i :: checkCharacters (i + 1) lower upper str
      else checkCharacters (i + 1) lower true str
    else if c.toNat < 33 ∨ 126 < c.toNat then i :: checkCharacters (i + 1) lower upper str
    else checkCharacters (i + 1) lower upper str

def rfind (c : UInt8) : Bytes → Option Nat
  | [] => none
  | x :: str =>
    match rfind c str with
    | some i => some (i + 1)
    | none => if x = c then some 0 else none

def charsetAt (v : Nat) : UInt8 := charset.getD v 0

def charsetRevAt (c : UInt8) : Option Nat :=
  let rev := charsetRev.getD c.toNat (-1)
  if rev = -1 then none else some rev.toNat

/-- No string where an assertion of the source fails. -/
def encodeBech32 (encoding : Encoding) (hrp : Bytes) (values : List Nat) : Option Bytes :=
  if encoding = .invalid ∨ hrp.any isUpperCase then none
  else some (hrp ++ separator :: (values ++ createChecksum encoding hrp values).map charsetAt)

structure DecodeResult where
  encoding : Encoding := .invalid
  hrp : Bytes := []
  data : List Nat := []

def decodeBech32 (str : Bytes) : DecodeResult :=
  if checkCharacters 0 false false str ≠ [] then {}
  else if charLimit < str.length then {}
  else
    match rfind separator str with
    | none => {}
    | some pos =>
      if pos = 0 ∨ str.length ≤ pos + checksumSize then {}
      else
        match (str.drop (pos + 1)).mapM charsetRevAt with
        | none => {}
        | some values =>
          let hrp := (str.take pos).map lowerCase
          let result := verifyChecksum hrp values
          if result = .invalid then {}
          else ⟨result, hrp, values.take (values.length - checksumSize)⟩

theorem forall_uint8 {P : UInt8 → Prop} (h : ∀ n < 256, P (UInt8.ofNat n)) (c : UInt8) : P c := by
  have hc := h c.toNat c.toNat_lt
  rwa [UInt8.ofNat_toNat] at hc

theorem charsetRevAt_table : ∀ c, ∀ v ∈ charsetRevAt c, v < 32 ∧ charsetAt v = lowerCase c :=
  forall_uint8 (by decide +kernel)

variable {c : UInt8} {encoding : Encoding}

theorem charsetRevAt_eq_some {v : Nat} (h : charsetRevAt c = some v) :
    v < 32 ∧ charsetAt v = lowerCase c := charsetRevAt_table c v h

def PlainCharacter (c : UInt8) : Prop := 33 ≤ c.toNat ∧ c.toNat ≤ 126 ∧ isUpperCase c = false

theorem charsetAt_table : ∀ v < 32, charsetRevAt (charsetAt v) = some v ∧ charsetAt v ≠ separator ∧
    33 ≤ (charsetAt v).toNat ∧ (charsetAt v).toNat ≤ 126 ∧ isUpperCase (charsetAt v) = false := by
  decide +kernel

theorem isUpperCase_lowerCase : ∀ c, isUpperCase (lowerCase c) = false := forall_uint8 (by decide +kernel)

theorem lowerCase_of_not_upper (h : isUpperCase c = false) : lowerCase c = c := by
  simp [lowerCase, h]

variable {str : Bytes} {values : List Nat}

theorem checkCharacters_of_plain (h : ∀ c ∈ str, PlainCharacter c) (i : Nat) (lower : Bool) :
    checkCharacters i lower false str = [] := by
  induction str generalizing i lower with
  | nil => rfl
  | cons c str ih =>
    obtain ⟨hlow, hhigh, hupper⟩ := h c List.mem_cons_self
    have hrest := ih fun x hx => h x (List.mem_cons_of_mem c hx)
    have hrange : ¬ (c.toNat < 33 ∨ 126 < c.toNat) := by omega
    simp [checkCharacters, hupper, hrest, hrange]

theorem rfind_eq_none (h : c ∉ str) : rfind c str = none := by
  induction str with
  | nil => rfl
  | cons x str ih =>
    have hx : x ≠ c := fun hx => h (hx ▸ List.mem_cons_self)
    simp [rfind, ih fun hc => h (List.mem_cons_of_mem x hc), hx]

theorem rfind_append (s : Bytes) {t : Bytes} (h : c ∉ t) : rfind c (s ++ c :: t) = some s.length := by
  induction s with
  | nil => simp [rfind, rfind_eq_none h]
  | cons x s ih => simp [rfind, ih]

theorem rfind_eq_some {pos : Nat} (h : rfind c str = some pos) :
    str = str.take pos ++ c :: str.drop (pos + 1) := by
  induction str generalizing pos with
  | nil => cases h
  | cons x str ih =>
    cases hrest : rfind c str with
    | some i =>
      simp only [rfind, hrest, Option.some.injEq] at h
      subst h
      simpa using ih hrest
    | none =>
      simp only [rfind, hrest] at h
      split at h
      · rename_i hx
        cases h
        simp [hx]
      · cases h

theorem mapM_eq_some_iff {α β : Type} {f : α → Option β} {l : List α} {l' : List β} :
    l.mapM f = some l' ↔ List.Forall₂ (fun a b => f a = some b) l l' := by
  induction l generalizing l' with
  | nil => simp [eq_comm]
  | cons a l ih =>
    simp only [List.mapM_cons, List.forall₂_cons_left_iff, Option.bind_eq_bind, Option.bind_eq_some_iff, ih,
      Option.pure_def, Option.some.injEq]
    exact ⟨fun ⟨b, hb, bs, hbs, heq⟩ => ⟨b, bs, hb, hbs, heq.symm⟩,
      fun ⟨b, bs, hb, hbs, heq⟩ => ⟨b, hb, bs, hbs, heq.symm⟩⟩

/-- The characters have these values. -/
abbrev Reads (str : Bytes) (values : List Nat) : Prop := List.Forall₂ (fun c v => charsetRevAt c = some v) str values

theorem Reads.lower (h : Reads str values) :
    (∀ v ∈ values, v < 32) ∧ values.map charsetAt = str.map lowerCase := by
  induction h with
  | nil => simp
  | cons hc _ ih =>
    obtain ⟨hlt, hchar⟩ := charsetRevAt_eq_some hc
    exact ⟨List.forall_mem_cons.mpr ⟨hlt, ih.1⟩, by rw [List.map_cons, List.map_cons, hchar, ih.2]⟩

theorem Reads.values_eq (h : Reads str values) : values = str.map fun c => (charsetRevAt c).getD 0 := by
  induction h with
  | nil => rfl
  | cons hc _ ih => rw [List.map_cons, ← ih, hc, Option.getD_some]

theorem Reads.map_charsetAt (h : ∀ v ∈ values, v < 32) : Reads (values.map charsetAt) values :=
  List.forall₂_map_left_iff.mpr (List.forall₂_same.mpr fun v hv => (charsetAt_table v (h v hv)).1)

theorem verifyChecksum_iff {hrp : Bytes} (h : encoding ≠ .invalid) : verifyChecksum hrp values = encoding ↔
      polyMod (preparePolynomialCoefficients hrp values) = encodingConstant encoding := by
  have hdistinct : encodingConstant .bech32 ≠ encodingConstant .bech32m := by decide
  simp only [verifyChecksum]
  generalize polyMod (preparePolynomialCoefficients hrp values) = check
  by_cases hfirst : check = encodingConstant .bech32
  · cases encoding <;> simp_all
  · by_cases hsecond : check = encodingConstant .bech32m
    all_goals cases encoding <;> simp_all

/-- The string has the form `Decode` and `LocateErrors` both ask for before they look at
the checksum. -/
structure Parses (str : Bytes) (pos : Nat) (values : List Nat) : Prop where
  characters : checkCharacters 0 false false str = []
  limit : str.length ≤ charLimit
  found : rfind separator str = some pos
  nonempty : pos ≠ 0
  room : pos + checksumSize < str.length
  read : Reads (str.drop (pos + 1)) values

theorem parses_of_decodeBech32 (h : (decodeBech32 str).encoding ≠ .invalid) : ∃ pos values, Parses str pos values := by
  revert h
  unfold decodeBech32
  split
  · exact fun h => absurd rfl h
  rename_i hchars
  split
  · exact fun h => absurd rfl h
  rename_i hlimit
  split
  · exact fun h => absurd rfl h
  rename_i pos hpos
  split
  · exact fun h => absurd rfl h
  rename_i hplace
  split
  · exact fun h => absurd rfl h
  rename_i values hvalues
  intro _
  rw [not_or] at hplace
  exact ⟨pos, values, not_not.mp hchars, Nat.le_of_not_lt hlimit, hpos, hplace.1, Nat.lt_of_not_le hplace.2,
    mapM_eq_some_iff.mp hvalues⟩

theorem Parses.decodeBech32 {pos : Nat} (h : Parses str pos values) :
    decodeBech32 str = if verifyChecksum ((str.take pos).map lowerCase) values = .invalid then {}
      else ⟨verifyChecksum ((str.take pos).map lowerCase) values, (str.take pos).map lowerCase,
        values.take (values.length - checksumSize)⟩ := by
  have hplace := not_or.mpr ⟨h.nonempty, Nat.not_le_of_lt h.room⟩
  rw [Byze.decodeBech32, if_neg (not_not.mpr h.characters), if_neg (Nat.not_lt_of_le h.limit), h.found]
  simp [hplace, mapM_eq_some_iff.mpr h.read]

/-- An accepted string is, up to letter case, the encoding of what it decodes to. -/
theorem encode_decodeBech32 (h : (decodeBech32 str).encoding ≠ .invalid) :
    encodeBech32 (decodeBech32 str).encoding (decodeBech32 str).hrp (decodeBech32 str).data =
        some (str.map lowerCase) ∧ ∀ v ∈ (decodeBech32 str).data, v < 32 := by
  obtain ⟨pos, values, hparse⟩ := parses_of_decodeBech32 h
  have hbound := hparse.room
  have hvalid : verifyChecksum ((str.take pos).map lowerCase) values ≠ .invalid := by
    intro hinvalid
    rw [hparse.decodeBech32, if_pos hinvalid] at h
    exact h rfl
  rw [hparse.decodeBech32, if_neg hvalid]
  obtain ⟨hlt, hchars⟩ := hparse.read.lower
  have hlength : values.length = str.length - (pos + 1) := by
    simpa using congrArg List.length hchars
  have hsix : (values.drop (values.length - checksumSize)).length = 6 := by
    simp only [List.length_drop, checksumSize] at hbound ⊢
    omega
  have htake : ∀ v ∈ values.take (values.length - checksumSize), v < 32 :=
    fun v hv => hlt v (List.mem_of_mem_take hv)
  have hdrop : ∀ v ∈ values.drop (values.length - checksumSize), v < 32 :=
    fun v hv => hlt v (List.mem_of_mem_drop hv)
  have hlowered : str.map lowerCase =
      (str.take pos).map lowerCase ++ separator :: (str.drop (pos + 1)).map lowerCase := by
    conv_lhs => rw [rfind_eq_some hparse.found]
    rw [List.map_append]
    rfl
  have hupper : ((str.take pos).map lowerCase).any isUpperCase = false := by
    rw [List.any_eq_false]
    intro c hc
    obtain ⟨x, -, rfl⟩ := List.mem_map.mp hc
    simp [isUpperCase_lowerCase]
  rw [hlowered]
  generalize (str.take pos).map lowerCase = hrp at hvalid hupper ⊢
  have hchecksum := (polyMod_append_iff (verifyChecksum hrp values) hrp htake hsix hdrop).mp
    (by rw [List.take_append_drop]; exact (verifyChecksum_iff hvalid).mp rfl)
  refine ⟨?_, htake⟩
  rw [encodeBech32, if_neg (by simp [hvalid, hupper]), ← hchecksum, List.take_append_drop, hchars]

theorem encodeBech32_eq {hrp : Bytes} (values : List Nat) (hvalid : encoding ≠ .invalid)
    (hplain : ∀ c ∈ hrp, PlainCharacter c) :
    encodeBech32 encoding hrp values =
      some (hrp ++ separator :: (values ++ createChecksum encoding hrp values).map charsetAt) := by
  have hupper : hrp.any isUpperCase = false := by
    rw [List.any_eq_false]
    intro c hc
    simp [(hplain c hc).2.2]
  rw [encodeBech32, if_neg (by simp [hvalid, hupper])]

theorem map_lowerCase_of_plain (h : ∀ c ∈ str, PlainCharacter c) : str.map lowerCase = str := by
  conv_rhs => rw [← List.map_id str]
  exact List.map_congr_left fun c hc => lowerCase_of_not_upper (h c hc).2.2

theorem decode_encodeBech32 {hrp str : Bytes} (hstr : encodeBech32 encoding hrp values = some str)
    (hhrp : hrp ≠ []) (hplain : ∀ c ∈ hrp, PlainCharacter c) (hvalues : ∀ v ∈ values, v < 32)
    (hlimit : hrp.length + values.length ≤ 83) : decodeBech32 str = ⟨encoding, hrp, values⟩ := by
  have hvalid : encoding ≠ .invalid := by
    rintro rfl
    simp [encodeBech32] at hstr
  rw [encodeBech32_eq values hvalid hplain, Option.some.injEq] at hstr
  have hcheckLength := createChecksum_length encoding hrp values
  have hcheckLt : ∀ d ∈ createChecksum encoding hrp values, d < 32 := checksumValues_lt _
  have hverify :=
    (verifyChecksum_iff hvalid).mpr ((polyMod_append_iff encoding hrp hvalues hcheckLength hcheckLt).mpr rfl)
  generalize createChecksum encoding hrp values = checksum at *
  have hall : ∀ v ∈ values ++ checksum, v < 32 := by
    intro v hv
    rcases List.mem_append.mp hv with hv | hv
    · exact hvalues v hv
    · exact hcheckLt v hv
  have hcharacters : ∀ c ∈ (values ++ checksum).map charsetAt, PlainCharacter c ∧ c ≠ separator := by
    intro c hc
    obtain ⟨v, hv, rfl⟩ := List.mem_map.mp hc
    obtain ⟨-, hne, hlow, hhigh, hcase⟩ := charsetAt_table v (hall v hv)
    exact ⟨⟨hlow, hhigh, hcase⟩, hne⟩
  have hcheck : checkCharacters 0 false false str = [] := by
    refine checkCharacters_of_plain ?_ 0 false
    intro c hc
    rw [← hstr] at hc
    rcases List.mem_append.mp hc with hc | hc
    · exact hplain c hc
    · rcases List.mem_cons.mp hc with rfl | hc
      · exact ⟨by decide, by decide, by decide⟩
      · exact (hcharacters c hc).1
  have hrfind : rfind separator str = some hrp.length := by
    rw [← hstr]
    exact rfind_append hrp fun hmem => (hcharacters _ hmem).2 rfl
  have hlength : str.length = hrp.length + 1 + values.length + 6 := by
    simp [← hstr, hcheckLength]
    omega
  have hread : Reads (str.drop (hrp.length + 1)) (values ++ checksum) := by
    rw [← hstr]
    simpa using Reads.map_charsetAt hall
  have hlower : (str.take hrp.length).map lowerCase = hrp := by
    rw [← hstr, List.take_left]
    exact map_lowerCase_of_plain hplain
  have hpos : 0 < hrp.length := List.length_pos_iff.mpr hhrp
  have hparse : Parses str hrp.length (values ++ checksum) :=
    ⟨hcheck, by rw [charLimit]; omega, hrfind, hpos.ne', by rw [checksumSize]; omega, hread⟩
  rw [hparse.decodeBech32, hlower, hverify, if_neg hvalid]
  simp [checksumSize, hcheckLength]
end

end Byze
