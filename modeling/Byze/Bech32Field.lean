import Byze.Bech32Locate
import Byze.Lib.XorField

/-! The field with 1024 elements behind the tables. The syndromes of a residue are
values of the polynomial it stands for, and one more value in the checksum
multiplies and adds to them. -/

namespace Byze
open XorField BitGroups

theorem xor_xor_xor_comm (a b c d : Nat) : (a ^^^ b) ^^^ (c ^^^ d) = (a ^^^ c) ^^^ (b ^^^ d) := by ac_rfl

theorem gf32Mul_eq : ∀ a < 32,
    gf32Mul a 23 = generatorTerm a 23 0 ^^^ generatorTerm a 7 1 ^^^ generatorTerm a 14 2 ^^^
      generatorTerm a 28 3 ^^^ generatorTerm a 17 4 ∧
    gf32Mul a 9 = generatorTerm a 9 0 ^^^ generatorTerm a 18 1 ^^^ generatorTerm a 13 2 ^^^
      generatorTerm a 26 3 ^^^ generatorTerm a 29 4 ∧
    gf32Mul a 23 < 32 ∧ gf32Mul a 9 < 32 := by
  decide +kernel

theorem gf32Mul_xor {a b : Nat} (ha : a < 32) (hb : b < 32) :
    gf32Mul (a ^^^ b) 23 = gf32Mul a 23 ^^^ gf32Mul b 23 ∧ gf32Mul (a ^^^ b) 9 = gf32Mul a 9 ^^^ gf32Mul b 9 := by
  have hab : a ^^^ b < 32 := Nat.xor_lt_two_pow (n := 5) ha hb
  rw [(gf32Mul_eq _ hab).1, (gf32Mul_eq _ ha).1, (gf32Mul_eq _ hb).1, (gf32Mul_eq _ hab).2.1,
    (gf32Mul_eq _ ha).2.1, (gf32Mul_eq _ hb).2.1]
  simp only [generatorTerm_xor]
  constructor <;> ac_rfl

theorem gf32Mul_lt {a : Nat} (ha : a < 32) : gf32Mul a 23 < 32 ∧ gf32Mul a 9 < 32 :=
  (gf32Mul_eq a ha).2.2

variable {x : Nat}

theorem gf1024Step_eq (hx : x < 2 ^ 10) :
    gf1024Step x = ((gf32Mul (x >>> 5) 9 ^^^ (x &&& 31)) <<< 5) ^^^ gf32Mul (x >>> 5) 23 := by
  have hhigh : x >>> 5 < 32 := by
    omega
  exact shiftLeft_or_eq_xor (gf32Mul_lt hhigh).1

theorem gf1024Step_lt (x : Nat) (hx : x < 2 ^ 10) : gf1024Step x < 2 ^ 10 := by
  have hhigh : x >>> 5 < 32 := by
    omega
  obtain ⟨h23, h9⟩ := gf32Mul_lt hhigh
  have hlow : x &&& 31 < 2 ^ 5 := Nat.and_lt_two_pow x (by decide)
  have hsum := Nat.xor_lt_two_pow h9 hlow
  rw [gf1024Step_eq hx]
  apply Nat.xor_lt_two_pow
  · omega
  · omega

theorem gf1024Step_xor (x : Nat) (hx : x < 2 ^ 10) (y : Nat) (hy : y < 2 ^ 10) :
    gf1024Step (x ^^^ y) = gf1024Step x ^^^ gf1024Step y := by
  have hhigh : ∀ z < 2 ^ 10, z >>> 5 < 32 := by
    intro z hz
    omega
  obtain ⟨h23, h9⟩ := gf32Mul_xor (hhigh x hx) (hhigh y hy)
  rw [gf1024Step_eq (Nat.xor_lt_two_pow hx hy), gf1024Step_eq hx, gf1024Step_eq hy, Nat.shiftRight_xor_distrib,
    Nat.and_xor_distrib_right, h23, h9]
  simp only [Nat.shiftLeft_xor_distrib]
  ac_rfl

def wordMask (l : List Nat) : Nat := l.foldl (fun m v => m ||| (1 <<< v)) 0

theorem testBit_foldl_or (l : List Nat) (m x : Nat) :
    (l.foldl (fun m v => m ||| (1 <<< v)) m).testBit x = true ↔ m.testBit x = true ∨ x ∈ l := by
  induction l generalizing m with
  | nil => simp
  | cons v l ih =>
    rw [List.foldl_cons, ih, Nat.testBit_or, Bool.or_eq_true, Nat.one_shiftLeft, Nat.testBit_two_pow,
      decide_eq_true_eq, List.mem_cons, or_assoc]
    exact or_congr_right (or_congr_left eq_comm)

theorem mem_of_wordMask {l : List Nat} {n : Nat} (h : wordMask l = 2 * (2 ^ n - 1)) (x : Nat) :
    x ∈ l ↔ x ≠ 0 ∧ x < n + 1 := by
  have hbit := testBit_foldl_or l 0 x
  rw [← wordMask, h] at hbit
  cases x with
  | zero => simpa using hbit
  | succ y =>
    rw [Nat.testBit_succ] at hbit
    simpa using hbit.symm

theorem wordMask_gf1024Exp :
    wordMask gf1024Exp = 2 * (2 ^ 1023 - 1) ∧ gf1024Step (gf1024Exp.getD 1022 0) = 1 := by
  decide +kernel

theorem gf1024Step_period : gf1024Step^[2 ^ 10 - 1] 1 = 1 := by
  have hlast := wordMask_gf1024Exp.2
  have hget : gf1024Exp.getD 1022 0 = gf1024Step^[1022] 1 := by
    rw [gf1024Exp, List.getD_eq_getElem _ _ (by rw [List.length_iterate]; decide), List.getElem_iterate]
  rw [hget] at hlast
  exact (Function.iterate_succ_apply' gf1024Step 1022 1).trans hlast

theorem gf1024Step_reaches (x : Nat) (hx : x < 2 ^ 10) (hzero : x ≠ 0) :
    ∃ k < 2 ^ 10 - 1, gf1024Step^[k] 1 = x := by
  obtain ⟨k, hk, rfl⟩ := List.mem_iterate.mp ((mem_of_wordMask wordMask_gf1024Exp.1 x).mpr ⟨hzero, hx⟩)
  exact ⟨k, hk, rfl⟩

def gf1024 : Generator 10 where
  step := gf1024Step
  step_lt := gf1024Step_lt
  step_xor := gf1024Step_xor
  one_lt := by decide
  period := gf1024Step_period
  reaches := gf1024Step_reaches

abbrev Gf := Elem gf1024

def toGf (x : Nat) : Gf := ⟨x % 2 ^ 10, Nat.mod_lt _ (Nat.two_pow_pos 10)⟩

abbrev genE : Gf := Elem.gen gf1024

/-- What an error with some value at a place adds to the first syndrome. -/
def ErrorAt (p : Nat) (a : Gf) : Prop := ∃ e, e ≠ 0 ∧ e < 32 ∧ toGf e * genE ^ (997 * p) = a

/-- Three numbers are the power sums of one error. -/
structure OneError (s0 s1 s2 p : Nat) : Prop where
  value : ErrorAt p (toGf s0)
  first : toGf s1 = toGf s0 * genE ^ p
  second : toGf s2 = toGf s0 * (genE ^ p) ^ 2

theorem toGf_xor (x y : Nat) : toGf (x ^^^ y) = toGf x + toGf y := Elem.ext (Nat.xor_mod_two_pow)

theorem val_toGf (hx : x < 2 ^ 10) : (toGf x).val = x := Nat.mod_eq_of_lt hx

theorem toGf_inj {x y : Nat} (hx : x < 2 ^ 10) (hy : y < 2 ^ 10) (h : toGf x = toGf y) : x = y := by
  rw [← val_toGf hx, h, val_toGf hy]

theorem toGf_zero : toGf 0 = 0 := Elem.ext rfl

theorem toGf_eq_zero_iff (hx : x < 2 ^ 10) : toGf x = 0 ↔ x = 0 := by
  constructor
  · intro h
    exact toGf_inj hx (Nat.two_pow_pos 10) (h.trans toGf_zero.symm)
  · intro h
    rw [h, toGf_zero]

theorem toGf_mul_pow (hx : x < 2 ^ 10) (k : Nat) : toGf x * genE ^ k = toGf (gf1024Step^[k] x) := by
  apply Elem.ext
  have hlt : gf1024Step^[k] x < 2 ^ 10 := gf1024.iterate_lt hx k
  rw [Elem.val_mul_gen_pow, val_toGf hx, val_toGf hlt]
  rfl

theorem expAt_eq {i : Nat} (hi : i < 1023) : expAt i = gf1024.pow i := by
  have hlen : i < gf1024Exp.length := by
    rw [gf1024Exp, List.length_iterate]
    exact hi
  rw [expAt, List.getD_eq_getElem _ _ hlen]
  exact List.getElem_iterate gf1024Step 1 1023 i hlen

theorem expAt_lt {i : Nat} (hi : i < 1023) : expAt i < 2 ^ 10 := by
  rw [expAt_eq hi]
  exact gf1024.pow_lt i

theorem toGf_expAt (k : Nat) : toGf (expAt (k % 1023)) = genE ^ k := by
  have hlt : k % 1023 < 1023 := Nat.mod_lt _ (by decide)
  apply Elem.ext
  rw [val_toGf (expAt_lt hlt), expAt_eq hlt, Elem.val_gen_pow]
  exact gf1024.pow_mod k

theorem getD_foldl_set_of_notMem {es : List (Nat × Nat)} {log : List Int} (hx : x ∉ es.map Prod.fst) :
    (es.foldl (fun (log : List Int) e => log.set e.1 e.2) log).getD x 0 = log.getD x 0 := by
  induction es generalizing log with
  | nil => rfl
  | cons e es ih =>
    rw [List.map_cons, List.mem_cons, not_or] at hx
    rw [List.foldl_cons, ih hx.2, List.getD_eq_getElem?_getD, List.getElem?_set_ne (Ne.symm hx.1),
      ← List.getD_eq_getElem?_getD]

theorem getD_foldl_set_of_mem {es : List (Nat × Nat)} {log : List Int} {x v : Nat} (hkeys : (es.map Prod.fst).Nodup)
    (hmem : (x, v) ∈ es) (hx : x < log.length) :
    (es.foldl (fun (log : List Int) e => log.set e.1 e.2) log).getD x 0 = v := by
  induction es generalizing log with
  | nil => cases hmem
  | cons e es ih =>
    rw [List.map_cons, List.nodup_cons] at hkeys
    rw [List.foldl_cons]
    rcases List.mem_cons.mp hmem with rfl | hmem
    · rw [getD_foldl_set_of_notMem hkeys.1, List.getD_eq_getElem?_getD, List.getElem?_set_self hx, Option.getD_some]
    · exact ih hkeys.2 hmem (by rwa [List.length_set])

theorem gf1024Exp_nodup : gf1024Exp.Nodup := by
  rw [gf1024Exp, List.nodup_iff_injective_get]
  intro i j hij
  have hlen := List.length_iterate gf1024Step 1 1023
  have hi : i.val < 1023 := Nat.lt_of_lt_of_eq i.isLt hlen
  have hj : j.val < 1023 := Nat.lt_of_lt_of_eq j.isLt hlen
  rw [List.get_eq_getElem, List.get_eq_getElem, List.getElem_iterate, List.getElem_iterate] at hij
  exact Fin.ext (gf1024.pow_injOn hi hj hij)

theorem mem_gf1024Exp (hx : x ∈ gf1024Exp) : x ≠ 0 ∧ x < 2 ^ 10 := by
  obtain ⟨k, -, rfl⟩ := List.mem_iterate.mp hx
  exact ⟨gf1024.pow_ne_zero k, gf1024.pow_lt k⟩

theorem logAt_expAt {i : Nat} (hi : i < 1023) : logAt (expAt i) = i := by
  have hlen : i < gf1024Exp.length := by
    rw [gf1024Exp, List.length_iterate]
    exact hi
  have hmem : (expAt i, i) ∈ gf1024Exp.zipIdx := by
    rw [List.mk_mem_zipIdx_iff_getElem?, expAt, List.getD_eq_getElem _ _ hlen, List.getElem?_eq_getElem hlen]
  refine getD_foldl_set_of_mem ?_ hmem ?_
  · rw [List.zipIdx_map_fst]
    exact gf1024Exp_nodup
  · rw [List.length_set, List.length_replicate]
    exact expAt_lt hi

theorem logAt_zero : logAt 0 = -1 := by
  have hzero : 0 ∉ gf1024Exp.zipIdx.map Prod.fst := by
    rw [List.zipIdx_map_fst]
    intro hmem
    exact (mem_gf1024Exp hmem).1 rfl
  rw [logAt, gf1024Log, logTable, getD_foldl_set_of_notMem hzero]
  rfl

theorem exists_logAt (hx : x < 2 ^ 10) (hzero : x ≠ 0) :
    ∃ k < 1023, logAt x = (k : Nat) ∧ toGf x = genE ^ k := by
  obtain ⟨k, hk, rfl⟩ := gf1024.reaches x hx hzero
  have hk' : k < 1023 := hk
  have hexp : expAt k = gf1024.step^[k] 1 := expAt_eq hk'
  refine ⟨k, hk', ?_, ?_⟩
  · rw [← hexp, logAt_expAt hk']
  · rw [← hexp, ← toGf_expAt, Nat.mod_eq_of_lt hk']

theorem genE_pow_eq_iff (i j : Nat) : genE ^ i = genE ^ j ↔ i % 1023 = j % 1023 := Elem.gen_pow_eq_iff i j

theorem genE_pow_1023 : genE ^ 1023 = 1 := Elem.gen_pow_order

theorem genE_ne_zero : genE ≠ 0 := Elem.gen_ne_zero

theorem logAt_two_pow {shift : Nat} (h : shift < 5) : logAt (1 <<< shift) = (99 * shift : Nat) := by
  have hexp : ∀ shift < 5, expAt (99 * shift) = 1 <<< shift := by decide +kernel
  rw [← hexp shift h, logAt_expAt (by omega)]

theorem syndromeConst_eq (k : Nat) {shift : Nat} (h : shift < 5) :
    syndromeConst k shift = expAt ((999 * k + 99 * shift) % 1023) <<< 20 |||
      expAt ((998 * k + 99 * shift) % 1023) <<< 10 ||| expAt ((997 * k + 99 * shift) % 1023) := by
  rw [syndromeConst, logAt_two_pow h]
  rfl

theorem syndromeConsts_eq : syndromeConsts = [
    1023514045, 714287955, 119952303, 215746174, 430737909, 361898857, 699679730, 66594541, 91539706, 142161373,
    745393999, 181387198, 361495157, 697554403, 62328774, 85888982, 146381477, 292008042, 543121620, 313189761,
    69822580, 138867905, 277695874, 554614532, 312081192] := by
  rw [syndromeConsts, List.map_congr_left fun i _ => syndromeConst_eq (i / 5 + 1) (Nat.mod_lt i (by decide))]
  decide +kernel

/-- The value at the power `997 + t`. -/
def synAt (t residue : Nat) : Nat := (syndrome residue >>> (10 * t)) &&& 0x3ff

/-- The syndromes determine a residue. -/
def unsyndrome (s : Nat) : Nat :=
  [786384776, 262843952, 500291945, 959649490, 586557613, 41411190, 82798053, 164294602, 286391988, 548625505,
    932563274, 1069233812, 804448289, 259355714, 477777028, 803308401, 257098731, 473301750, 946602213, 583827914,
    424316611, 806459558, 841167180, 910582424, 1049388089, 742568257, 176513666, 353002532, 680586312,
    52526224].zipIdx.foldl (fun r e => r ^^^ generatorTerm s e.1 e.2) 0

theorem syndrome_bits : (∀ i < 30, syndrome (2 ^ i) < 2 ^ 30 ∧ unsyndrome (syndrome (2 ^ i)) = 2 ^ i) ∧
    (∀ t < 3, ∀ v < 32, synAt t v = v) ∧
    ∀ t < 3, ∀ i < 30, gf1024Step^[26 - t] (synAt t (polyModStep (2 ^ i) 0)) = synAt t (2 ^ i) := by
  simp only [synAt, syndrome, syndromeConsts_eq]
  decide +kernel

/-- Errors at some places, with the lowest place first. -/
structure Pattern (length : Nat) (positions : List Nat) (coeffs : List Nat) : Prop where
  length_eq : coeffs.length = length
  lt : ∀ e ∈ coeffs, e < 32
  mem_iff : ∀ i, i ∈ positions ↔ coeffs.getD i 0 ≠ 0

theorem foldl_xor_linear {f : Nat → Nat → Nat} (hf : ∀ i x y, f i (x ^^^ y) = f i x ^^^ f i y) (l : List Nat)
    (x y a b : Nat) :
    l.foldl (fun r i => r ^^^ f i (x ^^^ y)) (a ^^^ b) =
      l.foldl (fun r i => r ^^^ f i x) a ^^^ l.foldl (fun r i => r ^^^ f i y) b := by
  induction l generalizing a b with
  | nil => rfl
  | cons i l ih =>
    simp [← ih, hf, xor_xor_xor_comm]

theorem ite_shiftRight_and_one (x c k : Nat) : (if (x >>> k) &&& 1 ≠ 0 then c else 0) = generatorTerm x c k := by
  have hbit : (x >>> k) &&& 1 ≠ 0 ↔ x.testBit k = true := by
    rw [Nat.testBit, bne_iff_ne, Nat.and_comm]
  unfold generatorTerm
  by_cases h : x.testBit k = true
  · rw [if_pos (hbit.mpr h), if_pos h]
  · rw [if_neg (mt hbit.mp h), if_neg h]

def lowSyndrome (residue : Nat) : Nat :=
  (residue &&& 0x1f) ^^^ ((residue &&& 0x1f) <<< 10) ^^^ ((residue &&& 0x1f) <<< 20)

theorem lowSyndrome_xor (x y : Nat) : lowSyndrome (x ^^^ y) = lowSyndrome x ^^^ lowSyndrome y := by
  unfold lowSyndrome
  rw [Nat.and_xor_distrib_right, Nat.shiftLeft_xor_distrib, Nat.shiftLeft_xor_distrib,
    xor_xor_xor_comm (x &&& 0x1f) (y &&& 0x1f), xor_xor_xor_comm ((x &&& 0x1f) ^^^ _)]

theorem syndrome_eq (residue : Nat) : syndrome residue = (List.range 25).foldl
      (fun r i => r ^^^ generatorTerm residue (syndromeConsts.getD i 0) (5 + i)) (lowSyndrome residue) := by
  simp only [syndrome, ite_shiftRight_and_one]
  rfl

theorem syndrome_xor (x y : Nat) : syndrome (x ^^^ y) = syndrome x ^^^ syndrome y := by
  have hlinear := foldl_xor_linear (f := fun i z => generatorTerm z (syndromeConsts.getD i 0) (5 + i))
    (fun i x y => generatorTerm_xor x y _ _) (List.range 25) x y (lowSyndrome x) (lowSyndrome y)
  rw [syndrome_eq, syndrome_eq, syndrome_eq, lowSyndrome_xor]
  exact hlinear

theorem synAt_xor (t x y : Nat) : synAt t (x ^^^ y) = synAt t x ^^^ synAt t y := by
  rw [synAt, syndrome_xor, Nat.shiftRight_xor_distrib, Nat.and_xor_distrib_right]
  rfl

theorem synAt_lt (t residue : Nat) : synAt t residue < 2 ^ 10 := Nat.and_lt_two_pow _ (by decide)

theorem syndrome_lt : ∀ x < 2 ^ 30, syndrome x < 2 ^ 30 := by
  refine xor_induction (P := fun x => syndrome x < 2 ^ 30) 30 (by decide) ?_
  intro i hi x hx hlt
  rw [syndrome_xor]
  exact Nat.xor_lt_two_pow (syndrome_bits.1 i hi).1 hlt

theorem synAt_two (hx : x < 2 ^ 30) : syndrome x >>> 20 = synAt 2 x := by
  have hlt := syndrome_lt x hx
  rw [synAt, show (0x3ff : Nat) = 2 ^ 10 - 1 from rfl, Nat.and_two_pow_sub_one_eq_mod]
  omega

theorem unsyndrome_xor (x y : Nat) : unsyndrome (x ^^^ y) = unsyndrome x ^^^ unsyndrome y := by
  have hlinear : ∀ (l : List (Nat × Nat)) (a b : Nat),
      l.foldl (fun r e => r ^^^ generatorTerm (x ^^^ y) e.1 e.2) (a ^^^ b) =
        l.foldl (fun r e => r ^^^ generatorTerm x e.1 e.2) a ^^^
          l.foldl (fun r e => r ^^^ generatorTerm y e.1 e.2) b := by
    intro l
    induction l with
    | nil =>
      intro a b
      rfl
    | cons e l ih =>
      intro a b
      simp [← ih, generatorTerm_xor, xor_xor_xor_comm]
  exact hlinear _ 0 0

theorem unsyndrome_syndrome : ∀ x < 2 ^ 30, unsyndrome (syndrome x) = x := by
  apply eq_of_bits (· ^^^ ·)
  · intro x _ y _
    rw [syndrome_xor, unsyndrome_xor]
  · intro x _ y _
    rfl
  · decide
  · exact fun i hi => (syndrome_bits.1 i hi).2

theorem eq_zero_of_synAt (hx : x < 2 ^ 30) (h : ∀ t < 3, synAt t x = 0) : x = 0 := by
  have h0 := h 0 (by decide)
  have h1 := h 1 (by decide)
  have h2 := h 2 (by decide)
  have hlt := syndrome_lt x hx
  rw [synAt, show (0x3ff : Nat) = 2 ^ 10 - 1 from rfl, Nat.and_two_pow_sub_one_eq_mod, Nat.shiftRight_eq_div_pow]
    at h0 h1 h2
  have hzero : syndrome x = 0 := by omega
  rw [← unsyndrome_syndrome x hx, hzero]
  decide

theorem synAt_small : ∀ t < 3, ∀ v < 32, synAt t v = v := syndrome_bits.2.1

/-- A value more in the checksum: the value at a root of the generator is multiplied
by the root, and the new value is added. -/
theorem toGf_synAt_polyModStep {t c v : Nat} (ht : t < 3) (hc : c < 2 ^ 30) (hv : v < 32) :
    toGf (synAt t (polyModStep c v)) = toGf (synAt t c) * genE ^ (997 + t) + toGf v := by
  have hback : ∀ x < 2 ^ 30, toGf (synAt t (polyModStep x 0)) * genE ^ (26 - t) = toGf (synAt t x) := by
    apply eq_of_bits (· + ·)
    · intro x _ y _
      have hstep := polyModStep_xor x y 0 0
      rw [Nat.xor_self] at hstep
      rw [hstep, synAt_xor, toGf_xor, add_mul]
    · intro x _ y _
      rw [synAt_xor, toGf_xor]
    · rw [toGf_mul_pow (synAt_lt _ _)]
      have hzero : polyModStep 0 0 = 0 := by decide
      have hsyn : synAt t 0 = 0 := synAt_small t ht 0 (by decide)
      have hfixed : gf1024Step^[26 - t] 0 = 0 := gf1024.iterate_zero (26 - t)
      rw [hzero, hsyn, hfixed]
    · intro i hi
      rw [toGf_mul_pow (synAt_lt _ _), syndrome_bits.2.2 t ht i hi]
  have hsplit : polyModStep c v = polyModStep c 0 ^^^ v := by
    have hstep := polyModStep_xor c 0 0 v
    rw [Nat.xor_zero, Nat.zero_xor, polyModStep_of_lt (c := 0) (by decide)] at hstep
    simp [hstep]
  have horder : genE ^ (26 - t) * genE ^ (997 + t) = 1 := by
    rw [← pow_add, show 26 - t + (997 + t) = 1023 by omega, genE_pow_1023]
  rw [hsplit, synAt_xor, toGf_xor, synAt_small t ht v hv, ← hback c hc, mul_assoc, horder, mul_one]

end Byze
