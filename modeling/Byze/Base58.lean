import Byze.Lib.Radix
import Byze.Bech32
import Mathlib.Data.List.DropRight

/-! The Base58 strings of byte strings. Both directions convert in place between
the two bases, and leading zero bytes are leading ones. -/

namespace Byze.Base58
open Radix

def pszBase58 : Bytes := asciiBytes "123456789ABCDEFGHJKLMNPQRSTUVWXYZabcdefghijkmnopqrstuvwxyz"

def mapBase58 : List Int := [
  -1,-1,-1,-1,-1,-1,-1,-1,-1,-1,-1,-1,-1,-1,-1,-1,
  -1,-1,-1,-1,-1,-1,-1,-1,-1,-1,-1,-1,-1,-1,-1,-1,
  -1,-1,-1,-1,-1,-1,-1,-1,-1,-1,-1,-1,-1,-1,-1,-1,
  -1,0,1,2,3,4,5,6,7,8,-1,-1,-1,-1,-1,-1,
  -1,9,10,11,12,13,14,15,16,-1,17,18,19,20,21,-1,
  22,23,24,25,26,27,28,29,30,31,32,-1,-1,-1,-1,-1,
  -1,33,34,35,36,37,38,39,40,41,42,43,-1,44,45,46,
  47,48,49,50,51,52,53,54,55,56,57,-1,-1,-1,-1,-1] ++ List.replicate 128 (-1)

def one : UInt8 := 0x31

def charAt (d : Nat) : UInt8 := pszBase58.getD d 0

def intMax : Nat := 2147483647

/-- The leading ones, which must not be more than the result may hold. Here and
below the outer `none` is a failed assertion, an exception or the overflow of an
`int`, the inner one a string that is refused. -/
def skipOnes (maxRetLen : Int) : Nat → Bytes → Option (Option (Nat × Bytes))
  | zeroes, [] => some (some (zeroes, []))
  | zeroes, c :: psz =>
    if c = one then
      if intMax < zeroes + 1 then none
      else if maxRetLen < (zeroes + 1 : Nat) then some none
      else skipOnes maxRetLen (zeroes + 1) psz
    else some (some (zeroes, c :: psz))

/-- The buffer for `chars` characters: the size is computed as a `size_t` and kept
in an `int`, and a vector of negative size is an exception. -/
def buffer (chars num den : Nat) : Option (List Nat) :=
  let size : Int := Int.bmod (chars * num % 2 ^ 64 / den + 1 : Nat) (2 ^ 32)
  if size < 0 then none else some (List.replicate size.toNat 0)

/-- The characters up to a space, with the buffer lowest byte first. -/
def decodeChars (maxRetLen : Int) (zeroes : Nat) : List Nat → Nat → Bytes →
    Option (Option (List Nat × Nat × Bytes))
  | b256, length, [] => some (some (b256, length, []))
  | b256, length, c :: psz =>
    if isSpace c then some (some (b256, length, c :: psz))
    else
      let carry := mapBase58.getD c.toNat (-1)
      if carry = -1 then some none
      else
        let pass := mulAdd 256 58 carry.toNat length b256
        if pass.2.1 ≠ 0 then none
        else if intMax < pass.2.2 + zeroes then none
        else if maxRetLen < (pass.2.2 + zeroes : Nat) then some none
        else decodeChars maxRetLen zeroes pass.1 pass.2.2 psz

def decodeBase58 (str : Bytes) (maxRetLen : Int) : Option (Option Bytes) :=
  if str.any (· == 0) then some none
  else match skipOnes maxRetLen 0 (str.dropWhile isSpace) with
    | none => none
    | some none => some none
    | some (some (zeroes, psz)) =>
      (buffer psz.length 733 1000).bind fun b256 =>
        (decodeChars maxRetLen zeroes b256 0 psz).map fun r => r.bind fun s =>
          if s.2.2.dropWhile isSpace ≠ [] then none
          else some (List.replicate zeroes 0 ++ (s.1.take s.2.1).reverse.map UInt8.ofNat)

def encodeBytes : List Nat → Nat → Bytes → Option (List Nat × Nat)
  | b58, length, [] => some (b58, length)
  | b58, length, c :: input =>
    let pass := mulAdd 58 256 c.toNat length b58
    if pass.2.1 ≠ 0 then none else encodeBytes pass.1 pass.2.2 input

def encodeBase58 (input : Bytes) : Option Bytes :=
  let zeroes := (input.takeWhile (· == 0)).length
  let input := input.dropWhile (· == 0)
  if intMax < zeroes then none
  else (buffer input.length 138 100).bind fun b58 =>
    (encodeBytes b58 0 input).map fun s =>
      List.replicate zeroes one ++ ((s.1.take s.2).reverse.dropWhile (· == 0)).map charAt

def trimSpaces (str : Bytes) : Bytes := (str.dropWhile isSpace).rdropWhile isSpace

theorem table_char : ∀ d < 58, mapBase58.getD (charAt d).toNat (-1) = d ∧ isSpace (charAt d) = false ∧
    charAt d ≠ 0 ∧ (charAt d = one ↔ d = 0) := by
  decide +kernel

theorem charAt_map : ∀ c : UInt8, mapBase58.getD c.toNat (-1) ≠ -1 →
    (mapBase58.getD c.toNat (-1)).toNat < 58 ∧ charAt (mapBase58.getD c.toNat (-1)).toNat = c :=
  forall_uint8 (by decide +kernel)

theorem pow_le_pow_of_ratio {a b p q n s : Nat} (hb : 0 < b) (hq : 0 < q) (h : a ^ q ≤ b ^ p) (hs : n * p ≤ q * s) :
    a ^ n ≤ b ^ s := by
  have hpow : (a ^ n) ^ q ≤ (b ^ s) ^ q := by
    calc (a ^ n) ^ q = (a ^ q) ^ n := by rw [← pow_mul, ← pow_mul, Nat.mul_comm]
      _ ≤ (b ^ p) ^ n := Nat.pow_le_pow_left h n
      _ = b ^ (n * p) := by rw [← pow_mul, Nat.mul_comm]
      _ ≤ b ^ (q * s) := Nat.pow_le_pow_right hb hs
      _ = (b ^ s) ^ q := by rw [← pow_mul, Nat.mul_comm]
  exact (Nat.pow_le_pow_iff_left (Nat.pos_iff_ne_zero.mp hq)).mp hpow

theorem decode_fits (n : Nat) : 58 ^ n ≤ 256 ^ (n * 733 / 1000 + 1) := by
  apply pow_le_pow_of_ratio (p := 733) (q := 1000) (by decide) (by decide)
  · decide +kernel
  · omega

theorem encode_fits (n : Nat) : 256 ^ n ≤ 58 ^ (n * 138 / 100 + 1) := by
  apply pow_le_pow_of_ratio (p := 138) (q := 100) (by decide) (by decide)
  · decide +kernel
  · omega

theorem map_charAt {d : Nat} (hd : d < 58) : mapBase58.getD (charAt d).toNat (-1) = d := (table_char d hd).1

theorem isSpace_charAt {d : Nat} (hd : d < 58) : isSpace (charAt d) = false := (table_char d hd).2.1

theorem charAt_eq_one_iff {d : Nat} (hd : d < 58) : charAt d = one ↔ d = 0 := (table_char d hd).2.2.2

theorem padded_zero (base size : Nat) : List.replicate size 0 = padded base size 0 := by simp [padded]

theorem digit_fits {b m k n d size : Nat} (hd : d < m) (hfit : m ^ (k + 1) * (n + 1) ≤ b ^ size) :
    m ^ k * (m * n + d + 1) ≤ b ^ size ∧ m * n + d < b ^ size := by
  have hnext : m ^ k * (m * n + d + 1) ≤ b ^ size := by
    calc m ^ k * (m * n + d + 1) ≤ m ^ k * (m * (n + 1)) := Nat.mul_le_mul_left _ (by rw [Nat.mul_succ]; omega)
      _ = m ^ (k + 1) * (n + 1) := by ring
      _ ≤ b ^ size := hfit
  refine ⟨hnext, Nat.lt_of_lt_of_le (Nat.lt_succ_self _) ?_⟩
  exact (Nat.le_mul_of_pos_left _ (Nat.pow_pos (by omega))).trans hnext

variable {maxRetLen : Int} {ds : List Nat}

theorem decodeChars_digits {zeroes size n : Nat} (hds : ∀ d ∈ ds, d < 58)
    (hfit : 58 ^ ds.length * (n + 1) ≤ 256 ^ size)
    (hint : (Nat.digits 256 (read 58 n ds)).length + zeroes ≤ intMax)
    (hlen : (((Nat.digits 256 (read 58 n ds)).length + zeroes : Nat) : Int) ≤ maxRetLen) :
    decodeChars maxRetLen zeroes (padded 256 size n) (Nat.digits 256 n).length (ds.map charAt) =
      some (some (padded 256 size (read 58 n ds), (Nat.digits 256 (read 58 n ds)).length, [])) := by
  induction ds generalizing n with
  | nil => rfl
  | cons d ds ih =>
    have hd := hds d List.mem_cons_self
    obtain ⟨hnext, hsmall⟩ := digit_fits hd hfit
    have hpass := mulAdd_padded (b := 256) (m := 58) (by decide) (by decide) hsmall
    have hmono := Nat.le_length_digits_le 256 _ _ (le_read (b := 58) (by decide) (58 * n + d) ds)
    have hread : read 58 n (d :: ds) = read 58 (58 * n + d) ds := rfl
    rw [hread] at hlen hint
    have hshort : ¬maxRetLen < ((Nat.digits 256 (58 * n + d)).length + zeroes : Nat) := by omega
    have hsum : ¬intMax < (Nat.digits 256 (58 * n + d)).length + zeroes := by omega
    rw [List.map_cons, decodeChars, isSpace_charAt hd, if_neg Bool.false_ne_true, map_charAt hd]
    simp only [Int.toNat_natCast, hpass]
    rw [if_neg (not_not.mpr rfl), if_neg hsum, if_neg hshort]
    exact ih (fun x hx => hds x (List.mem_cons_of_mem d hx)) hnext hint hlen

theorem length_digits_step {n d : Nat} (hd : d < 58) :
    (Nat.digits 256 (58 * n + d)).length ≤ (Nat.digits 256 n).length + 1 := by
  have hlt := Nat.lt_base_pow_length_digits (b := 256) (m := n) (by decide)
  rw [Nat.digits_length_le_iff (by decide), pow_succ]
  omega

theorem decodeChars_cases (maxRetLen : Int) (zeroes : Nat) {size n : Nat} {psz : Bytes}
    (hfit : 58 ^ psz.length * (n + 1) ≤ 256 ^ size)
    (hint : (Nat.digits 256 n).length + zeroes + psz.length ≤ intMax) :
    decodeChars maxRetLen zeroes (padded 256 size n) (Nat.digits 256 n).length psz = some none ∨
      ∃ ds rest, psz = ds.map charAt ++ rest ∧ (∀ d ∈ ds, d < 58) ∧ (∀ c ∈ rest.head?, isSpace c = true) ∧
        decodeChars maxRetLen zeroes (padded 256 size n) (Nat.digits 256 n).length psz =
          some (some (padded 256 size (read 58 n ds), (Nat.digits 256 (read 58 n ds)).length, rest)) := by
  induction psz generalizing n with
  | nil => exact Or.inr ⟨[], [], rfl, by simp, by simp, rfl⟩
  | cons c psz ih =>
    by_cases hspace : isSpace c = true
    · refine Or.inr ⟨[], c :: psz, rfl, by simp, by simpa using hspace, ?_⟩
      rw [decodeChars, if_pos hspace]
      rfl
    rw [decodeChars, if_neg hspace]
    by_cases hmap : mapBase58.getD c.toNat (-1) = -1
    · exact Or.inl (if_pos hmap)
    obtain ⟨hlt, hchar⟩ := charAt_map c hmap
    simp only [if_neg hmap]
    generalize (mapBase58.getD c.toNat (-1)).toNat = d at hlt hchar
    obtain ⟨hnext, hsmall⟩ := digit_fits hlt hfit
    rw [mulAdd_padded (b := 256) (m := 58) (by decide) (by decide) hsmall]
    have hstep := length_digits_step (n := n) hlt
    rw [List.length_cons] at hint
    simp only [ne_eq, not_true_eq_false, if_false]
    rw [if_neg (by omega)]
    by_cases hlong : maxRetLen < ((Nat.digits 256 (58 * n + d)).length + zeroes : Nat)
    · exact Or.inl (if_pos hlong)
    rw [if_neg hlong]
    rcases ih hnext (by omega) with hfail | ⟨ds, rest, hpsz, hds, hrest, hrun⟩
    · exact Or.inl hfail
    · refine Or.inr ⟨d :: ds, rest, ?_, ?_, hrest, hrun⟩
      · simp [hchar, hpsz]
      · intro x hx
        rcases List.mem_cons.mp hx with rfl | hx
        · exact hlt
        · exact hds x hx

theorem encodeBytes_eq {size n : Nat} {input : Bytes} (hfit : 256 ^ input.length * (n + 1) ≤ 58 ^ size) :
    encodeBytes (padded 58 size n) (Nat.digits 58 n).length input =
      some (padded 58 size (read 256 n (input.map UInt8.toNat)),
        (Nat.digits 58 (read 256 n (input.map UInt8.toNat))).length) := by
  induction input generalizing n with
  | nil => rfl
  | cons c input ih =>
    obtain ⟨hnext, hsmall⟩ := digit_fits c.toNat_lt hfit
    rw [encodeBytes, mulAdd_padded (b := 58) (m := 256) (by decide) (by decide) hsmall]
    exact ih hnext

theorem dropWhile_of_head {α : Type} {p : α → Bool} {l : List α} (h : ∀ c ∈ l.head?, p c = false) :
    l.dropWhile p = l := by
  cases l with
  | nil => rfl
  | cons c l => rw [List.dropWhile_cons_of_neg (by simp [h c rfl])]

theorem takeWhile_zeros (x : Bytes) : x.takeWhile (· == 0) = List.replicate (x.takeWhile (· == 0)).length 0 := by
  apply List.eq_replicate_of_mem
  intro c hc
  have hzero := List.mem_takeWhile_imp (p := (· == 0)) hc
  exact beq_iff_eq.mp hzero

theorem head_dropWhile_zero (x : Bytes) : ∀ c ∈ (x.dropWhile (· == 0)).head?, c ≠ 0 := by
  intro c hc hzero
  have hfirst := List.head?_dropWhile_not (fun c : UInt8 => c == 0) x
  rw [hc, hzero] at hfirst
  cases hfirst

theorem head_digits_reverse {b n : Nat} : ∀ d ∈ (b.digits n).reverse.head?, d ≠ 0 := by
  intro d hd
  rw [List.head?_reverse] at hd
  obtain ⟨hne, rfl⟩ := List.mem_getLast?_eq_getLast hd
  exact Nat.getLast_digit_ne_zero b (Nat.digits_ne_nil_iff_ne_zero.mp hne)

theorem bmod_of_le {size : Nat} (hsize : size ≤ intMax) : Int.bmod size (2 ^ 32) = size := by
  have hmax : intMax = 2147483647 := rfl
  exact Int.bmod_eq_of_le (by omega) (by omega)

theorem buffer_eq {chars num den : Nat} (hmul : chars * num < 2 ^ 64)
    (hsize : chars * num / den + 1 ≤ intMax) :
    buffer chars num den = some (List.replicate (chars * num / den + 1) 0) := by
  have hint := bmod_of_le hsize
  have hpos : ¬((chars * num / den + 1 : Nat) : Int) < 0 := Int.not_lt.mpr (Int.natCast_nonneg _)
  have hmod := Nat.mod_eq_of_lt hmul
  unfold buffer
  rw [hmod]
  simp only [hint, if_neg hpos, Int.toNat_natCast]

/-- The longest input whose buffer has a size that is an `int`. -/
def maxInput : Nat := 1556147570

theorem encodeBase58_eq {zeroes : Nat} {y : Bytes} (hy : ∀ c ∈ y.head?, c ≠ 0)
    (hlen : zeroes + y.length ≤ maxInput) :
    encodeBase58 (List.replicate zeroes 0 ++ y) = some (List.replicate zeroes one ++
        (Nat.digits 58 (read 256 0 (y.map UInt8.toNat))).reverse.map charAt) := by
  have hhead : ∀ c ∈ y.head?, (c == 0) = false := by
    intro c hc
    exact beq_eq_false_iff_ne.mpr (hy c hc)
  have hdrop : (List.replicate zeroes 0 ++ y).dropWhile (· == 0) = y := by
    simp [dropWhile_of_head hhead]
  have htake : ((List.replicate zeroes 0 ++ y).takeWhile (· == 0)).length = zeroes := by
    have hsplit := congrArg List.length (List.takeWhile_append_dropWhile (p := (· == 0))
      (l := List.replicate zeroes 0 ++ y))
    rw [hdrop, List.length_append, List.length_append, List.length_replicate] at hsplit
    omega
  have hfit : 256 ^ y.length * (0 + 1) ≤ 58 ^ (y.length * 138 / 100 + 1) := by
    rw [Nat.mul_one]
    exact encode_fits y.length
  have hrun := encodeBytes_eq hfit
  rw [← padded_zero, Nat.digits_zero, List.length_nil] at hrun
  have hlead := head_digits_reverse (b := 58) (n := read 256 0 (y.map UInt8.toNat))
  have hbuffer : buffer y.length 138 100 = some (List.replicate (y.length * 138 / 100 + 1) 0) := by
    rw [maxInput] at hlen
    exact buffer_eq (by omega) (by rw [intMax]; omega)
  have hzeroes : ¬intMax < zeroes := by
    rw [maxInput] at hlen
    rw [intMax]
    omega
  rw [encodeBase58]
  simp only [hdrop, htake, hbuffer, if_neg hzeroes, Option.bind_some, hrun, Option.map_some, take_padded]
  rw [dropWhile_of_head]
  intro d hd
  exact beq_eq_false_iff_ne.mpr (hlead d hd)

theorem skipOnes_replicate {k z : Nat} {psz : Bytes} (hpsz : ∀ c ∈ psz.head?, c ≠ one)
    (hint : k + z ≤ intMax) (hlen : ((k + z : Nat) : Int) ≤ maxRetLen) :
    skipOnes maxRetLen k (List.replicate z one ++ psz) = some (some (k + z, psz)) := by
  induction z generalizing k with
  | zero =>
    cases psz with
    | nil => rfl
    | cons c psz =>
      have hc := hpsz c rfl
      rw [List.replicate_zero, List.nil_append, skipOnes, if_neg hc]
      rfl
  | succ z ih =>
    rw [List.replicate_succ, List.cons_append, skipOnes, if_pos rfl, if_neg (by omega), if_neg (by omega),
      ih (by omega) (by omega), Nat.add_right_comm, Nat.add_assoc]

theorem skipOnes_cases (maxRetLen : Int) {k : Nat} {psz : Bytes} (hint : k + psz.length ≤ intMax) :
    skipOnes maxRetLen k psz = some none ∨ ∃ z rest, skipOnes maxRetLen k psz = some (some (k + z, rest)) ∧
      psz = List.replicate z one ++ rest ∧ ∀ c ∈ rest.head?, c ≠ one := by
  induction psz generalizing k with
  | nil => exact Or.inr ⟨0, [], rfl, rfl, by simp⟩
  | cons c psz ih =>
    rw [List.length_cons] at hint
    rw [skipOnes]
    by_cases hc : c = one
    · rw [if_pos hc, if_neg (by omega)]
      by_cases hlong : maxRetLen < (k + 1 : Nat)
      · exact Or.inl (if_pos hlong)
      rw [if_neg hlong]
      rcases ih (k := k + 1) (by omega) with hfail | ⟨z, rest, hrun, hpsz, hrest⟩
      · exact Or.inl hfail
      · refine Or.inr ⟨z + 1, rest, ?_, ?_, hrest⟩
        · rw [hrun, Nat.add_right_comm, Nat.add_assoc]
        · rw [List.replicate_succ, List.cons_append, ← hpsz, hc]
    · rw [if_neg hc]
      exact Or.inr ⟨0, c :: psz, rfl, rfl, by simpa using hc⟩

theorem head_map_charAt (hds : ∀ d ∈ ds, d < 58) (hhead : ∀ d ∈ ds.head?, d ≠ 0) :
    ∀ c ∈ (ds.map charAt).head?, c ≠ one := by
  cases ds with
  | nil => simp
  | cons d ds =>
    intro c hc
    obtain rfl := Option.some.inj hc
    rw [ne_eq, charAt_eq_one_iff (hds d List.mem_cons_self)]
    exact hhead d rfl

theorem buffer_decode (psz : Bytes) (hpsz : psz.length ≤ intMax) : buffer psz.length 733 1000 =
    some (List.replicate (psz.length * 733 / 1000 + 1) 0) := by
  rw [intMax] at hpsz
  exact buffer_eq (by omega) (by rw [intMax]; omega)

theorem chars_of_digits (zeroes : Nat) (hds : ∀ d ∈ ds, d < 58) :
    ∀ c ∈ List.replicate zeroes one ++ ds.map charAt, isSpace c = false ∧ c ≠ 0 := by
  intro c hc
  rcases List.mem_append.mp hc with hc | hc
  · rw [List.eq_of_mem_replicate hc]
    decide
  · obtain ⟨d, hd, rfl⟩ := List.mem_map.mp hc
    exact ⟨isSpace_charAt (hds d hd), (table_char d (hds d hd)).2.2.1⟩

theorem decodeBase58_eq {zeroes : Nat} (hds : ∀ d ∈ ds, d < 58) (hhead : ∀ d ∈ ds.head?, d ≠ 0)
    (hint : (Nat.digits 256 (read 58 0 ds)).length + zeroes ≤ intMax) (hstr : ds.length ≤ intMax)
    (hlen : (((Nat.digits 256 (read 58 0 ds)).length + zeroes : Nat) : Int) ≤ maxRetLen) :
    decodeBase58 (List.replicate zeroes one ++ ds.map charAt) maxRetLen =
      some (some (List.replicate zeroes 0 ++ (Nat.digits 256 (read 58 0 ds)).reverse.map UInt8.ofNat)) := by
  have hchars := chars_of_digits zeroes hds
  have hnul : (List.replicate zeroes one ++ ds.map charAt).any (· == 0) = false := by
    rw [List.any_eq_false]
    intro c hc
    simpa using (hchars c hc).2
  have hspaces : (List.replicate zeroes one ++ ds.map charAt).dropWhile isSpace =
      List.replicate zeroes one ++ ds.map charAt := by
    apply dropWhile_of_head
    intro c hc
    exact (hchars c (List.mem_of_mem_head? hc)).1
  have hones : skipOnes maxRetLen 0 (List.replicate zeroes one ++ ds.map charAt) =
      some (some (0 + zeroes, ds.map charAt)) :=
    skipOnes_replicate (head_map_charAt hds hhead) (by omega) (by omega)
  have hfit : 58 ^ ds.length * (0 + 1) ≤ 256 ^ ((ds.map charAt).length * 733 / 1000 + 1) := by
    rw [Nat.mul_one, List.length_map]
    exact decode_fits ds.length
  have hbuffer := buffer_decode (ds.map charAt) (by rwa [List.length_map])
  have hrun := decodeChars_digits hds hfit hint hlen
  rw [← padded_zero, Nat.digits_zero, List.length_nil] at hrun
  rw [decodeBase58, hnul, if_neg Bool.false_ne_true, hspaces, hones]
  simp only [Nat.zero_add, hbuffer, hrun, Option.map_some, Option.bind_some, take_padded, List.dropWhile_nil,
    ne_eq, not_true_eq_false, if_false]

theorem length_digits_58 (y : Bytes) : (Nat.digits 58 (read 256 0 (y.map UInt8.toNat))).length ≤
    y.length * 138 / 100 + 1 := by
  rw [Nat.digits_length_le_iff (by decide)]
  refine Nat.lt_of_lt_of_le ?_ (encode_fits y.length)
  have hlt := Nat.ofDigits_lt_base_pow_length (b := 256) (l := (y.map UInt8.toNat).reverse) (by decide)
    (by simpa using fun c _ => c.toNat_lt)
  rwa [← read_zero_eq_ofDigits, List.length_reverse, List.length_map] at hlt

theorem decode_encodeBase58 {x : Bytes} (hmax : x.length ≤ maxInput) (hx : (x.length : Int) ≤ maxRetLen) :
    ∃ str, encodeBase58 x = some str ∧ decodeBase58 str maxRetLen = some (some x) := by
  have hy := head_dropWhile_zero x
  have hsplit := List.takeWhile_append_dropWhile (p := (· == 0)) (l := x)
  rw [takeWhile_zeros] at hsplit
  generalize (x.takeWhile (· == 0)).length = zeroes at hsplit
  generalize x.dropWhile (· == 0) = y at hsplit hy
  subst hsplit
  have hbytes : Nat.digits 256 (read 256 0 (y.map UInt8.toNat)) = (y.map UInt8.toNat).reverse := by
    apply digits_read (by decide)
    · intro d hd
      obtain ⟨c, -, rfl⟩ := List.mem_map.mp hd
      exact c.toNat_lt
    · intro d hd
      rw [List.head?_map] at hd
      obtain ⟨c, hc, rfl⟩ := Option.map_eq_some_iff.mp hd
      intro hzero
      exact hy c hc (UInt8.toNat_inj.mp hzero)
  have hds : ∀ d ∈ (Nat.digits 58 (read 256 0 (y.map UInt8.toNat))).reverse, d < 58 := by
    intro d hd
    exact Nat.digits_lt_base (by decide) (List.mem_reverse.mp hd)
  have hback := read_digits_reverse 58 (read 256 0 (y.map UInt8.toNat))
  rw [List.length_append, List.length_replicate] at hmax hx
  have hdigits := length_digits_58 y
  have hint : intMax = 2147483647 := rfl
  have hinput : maxInput = 1556147570 := rfl
  refine ⟨_, encodeBase58_eq hy hmax, ?_⟩
  rw [decodeBase58_eq hds head_digits_reverse]
  · rw [hback, hbytes, List.reverse_reverse, List.map_map]
    have hid : (UInt8.ofNat ∘ UInt8.toNat) = id := funext fun c => UInt8.ofNat_toNat
    simp [hid]
  · rw [hback, hbytes, List.length_reverse, List.length_map]
    omega
  · rw [List.length_reverse]
    omega
  · rw [hback, hbytes, List.length_reverse, List.length_map]
    omega

theorem trimSpaces_eq {str body rest : Bytes} (hstr : str.dropWhile isSpace = body ++ rest)
    (hbody : ∀ c ∈ body, isSpace c = false) (hrest : ∀ c ∈ rest, isSpace c = true) : trimSpaces str = body := by
  rw [trimSpaces, hstr, List.rdropWhile, List.reverse_append, List.dropWhile_append_of_pos, dropWhile_of_head,
    List.reverse_reverse]
  · intro c hc
    exact hbody c (List.mem_reverse.mp (List.mem_of_mem_head? hc))
  · intro c hc
    exact hrest c (List.mem_reverse.mp hc)

theorem encode_decodeBase58 {str : Bytes} (hlen : str.length ≤ intMax) (maxRetLen : Int) :
    ∃ r, decodeBase58 str maxRetLen = some r ∧
      ∀ vch ∈ r, vch.length ≤ maxInput → encodeBase58 vch = some (trimSpaces str) := by
  rw [decodeBase58]
  by_cases hnul : str.any (· == 0) = true
  · rw [if_pos hnul]
    exact ⟨none, rfl, by simp⟩
  rw [if_neg hnul]
  have hdrop : (str.dropWhile isSpace).length ≤ intMax :=
    (List.dropWhile_sublist isSpace).length_le.trans hlen
  rcases skipOnes_cases maxRetLen (k := 0) (by rwa [Nat.zero_add]) with hones | ⟨zeroes, psz, hones, hstr, hpsz⟩
  · rw [hones]
    exact ⟨none, rfl, by simp⟩
  · rw [hones, Nat.zero_add]
    have hsum : zeroes + psz.length ≤ intMax := by
      rwa [hstr, List.length_append, List.length_replicate] at hdrop
    have hbuffer := buffer_decode psz (by omega)
    have hfit : 58 ^ psz.length * (0 + 1) ≤ 256 ^ (psz.length * 733 / 1000 + 1) := by
      rw [Nat.mul_one]
      exact decode_fits psz.length
    have hrun := decodeChars_cases maxRetLen zeroes hfit (by simpa using hsum)
    rw [← padded_zero, Nat.digits_zero, List.length_nil] at hrun
    rcases hrun with hfail | ⟨ds, rest, hds, hlt, hrest, hrun⟩
    · simp only [hbuffer, Option.bind_some, hfail]
      exact ⟨none, rfl, by simp⟩
    simp only [hbuffer, hrun, Option.map_some, Option.bind_some, take_padded]
    by_cases htrail : rest.dropWhile isSpace ≠ []
    · rw [if_pos htrail]
      exact ⟨none, rfl, by simp⟩
    rw [if_neg htrail]
    refine ⟨_, rfl, ?_⟩
    intro vch hvch hmax
    obtain rfl := Option.some.inj hvch
    rw [List.length_append, List.length_replicate] at hmax
    have hspaces := List.dropWhile_eq_nil_iff.mp (not_not.mp htrail)
    have hbody := fun c hc => (chars_of_digits zeroes hlt c hc).1
    have hhead : ∀ d ∈ ds.head?, d ≠ 0 := by
      cases ds with
      | nil => simp
      | cons d ds =>
        intro d' hd'
        obtain rfl := Option.some.inj hd'
        have hfirst := hpsz (charAt d) (by rw [hds]; rfl)
        rwa [ne_eq, charAt_eq_one_iff (hlt d List.mem_cons_self)] at hfirst
    have hbyte : ∀ d ∈ (Nat.digits 256 (read 58 0 ds)).reverse, (UInt8.ofNat d).toNat = d := by
      intro d hd
      have hd256 := Nat.digits_lt_base (by decide) (List.mem_reverse.mp hd)
      exact Nat.mod_eq_of_lt hd256
    have hvalues : ((Nat.digits 256 (read 58 0 ds)).reverse.map UInt8.ofNat).map UInt8.toNat =
        (Nat.digits 256 (read 58 0 ds)).reverse := by
      rw [List.map_map]
      exact (List.map_congr_left hbyte).trans (List.map_id _)
    have hlead : ∀ c ∈ ((Nat.digits 256 (read 58 0 ds)).reverse.map UInt8.ofNat).head?, c ≠ 0 := by
      intro c hc hzero
      rw [List.head?_map] at hc
      obtain ⟨d, hd, rfl⟩ := Option.map_eq_some_iff.mp hc
      have hvalue := hbyte d (List.mem_of_mem_head? hd)
      rw [hzero] at hvalue
      exact head_digits_reverse d hd hvalue.symm
    rw [encodeBase58_eq hlead hmax, hvalues, read_digits_reverse, digits_read (by decide) hlt hhead, List.reverse_reverse,
      trimSpaces_eq _ hbody hspaces]
    simp [hstr, hds]

/-- As long as the sizes are an `int`, no assertion fails and the two directions
undo each other. -/
theorem base58_codec (maxRetLen : Int) : (∀ x : Bytes, x.length ≤ maxInput → ∃ str, encodeBase58 x = some str ∧
      ((x.length : Int) ≤ maxRetLen → decodeBase58 str maxRetLen = some (some x))) ∧
    ∀ str : Bytes, str.length ≤ intMax → ∃ r, decodeBase58 str maxRetLen = some r ∧
      ∀ vch, r = some vch → vch.length ≤ maxInput → encodeBase58 vch = some (trimSpaces str) := by
  constructor
  · intro x hmax
    obtain ⟨str, hstr, -⟩ := decode_encodeBase58 hmax (le_refl (x.length : Int))
    refine ⟨str, hstr, ?_⟩
    intro hx
    obtain ⟨str', hstr', hdecode⟩ := decode_encodeBase58 hmax hx
    rwa [Option.some.inj (hstr.symm.trans hstr')]
  · intro str hstr
    exact encode_decodeBase58 hstr maxRetLen

/-- One byte more, and the buffer would have a negative size. -/
theorem encodeBase58_too_long : encodeBase58 (List.replicate (maxInput + 1) 1) = none := by
  have hdrop : (List.replicate (maxInput + 1) (1 : UInt8)).dropWhile (· == 0) = List.replicate (maxInput + 1) 1 :=
    dropWhile_of_head (by simp [List.head?_replicate])
  have hsize : buffer (maxInput + 1) 138 100 = none := by decide
  simp only [encodeBase58, hdrop, List.length_replicate, hsize, Option.bind_none, ite_self]

end Byze.Base58
