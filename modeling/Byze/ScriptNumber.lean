import Byze.Script

/-! Script numbers: the minimal encodings are what `serialize` writes. -/

namespace Byze.CScriptNum
open LittleEndian
variable (init : Bytes) (b : UInt8) {vch other : Bytes} {n : Int}

theorem signBits : ∀ b : UInt8, (b &&& 0x80 = 0 ↔ b.toNat < 128) ∧ (b &&& 0x7f = 0 ↔ b.toNat % 128 = 0) ∧
    (b ||| 0x80).toNat = b.toNat % 128 + 128 := by
  rintro ⟨⟨b, hb⟩⟩
  revert b
  decide +kernel

theorem decode_concat : decode (init ++ [b]) = decode init + 256 ^ init.length * b.toNat := by
  induction init with
  | nil => simp [decode]
  | cons a init ih =>
    simp only [List.cons_append, decode, ih, List.length_cons, pow_succ]
    ring

theorem decode_concat_lt_iff : 2 * decode (init ++ [b]) < 256 ^ (init ++ [b]).length ↔ b.toNat < 128 := by
  have hlow := decode_lt init
  rw [decode_concat, List.length_append, List.length_singleton, pow_succ]
  rcases Nat.lt_or_ge b.toNat 128 with hb | hb
  · have hmul := Nat.mul_le_mul_left (256 ^ init.length) (Nat.le_of_lt_succ hb)
    omega
  · have hmul := Nat.mul_le_mul_left (256 ^ init.length) hb
    omega

/-- The shortest form of a number, with its sign in the highest bit. -/
def Encodes (vch : Bytes) (n : Int) : Prop :=
  2 * n.natAbs < 256 ^ vch.length ∧ 256 ^ vch.length ≤ max 1 (512 * n.natAbs) ∧
    decode vch = n.natAbs + if n < 0 then 256 ^ vch.length / 2 else 0

theorem Encodes.length_le_iff (h : Encodes vch n) (width : Nat) : vch.length ≤ width ↔ 2 * n.natAbs < 256 ^ width := by
  obtain ⟨hlt, hle, -⟩ := h
  constructor
  · intro hlength
    exact hlt.trans_le (Nat.pow_le_pow_right (by decide) hlength)
  · intro hn
    by_contra hlength
    have hpow := Nat.pow_le_pow_right (show 0 < 256 by decide) (Nat.lt_of_not_le hlength)
    rw [pow_succ] at hpow
    omega

theorem Encodes.unique (h : Encodes vch n) (h' : Encodes other n) : vch = other := by
  have hlength := Nat.le_antisymm ((h.length_le_iff _).mpr h'.1) ((h'.length_le_iff _).mpr h.1)
  rw [← encode_decode vch, ← encode_decode other, h.2.2, h'.2.2, hlength]

theorem encodes_iff : Encodes vch n ↔ nonMinimal vch = false ∧ setVch vch = n := by
  rcases List.eq_nil_or_concat' vch with rfl | ⟨init, top, rfl⟩
  · simp [Encodes, nonMinimal, setVch, decode]
    omega
  have hmin : nonMinimal (init ++ [top]) = true ↔ top.toNat % 128 = 0 ∧ 2 * decode init < 256 ^ init.length := by
    rcases List.eq_nil_or_concat' init with rfl | ⟨front, second, rfl⟩
    · simp [nonMinimal, (signBits top).2.1, decode]
    · rw [decode_concat_lt_iff]
      simp [nonMinimal, (signBits top).2.1, (signBits second).1]
  have hsign := decode_concat_lt_iff init top
  have hlow := decode_lt init
  have hlt := decode_lt (init ++ [top])
  have hdecode := decode_concat init top
  have htop : 256 ^ init.length * top.toNat =
      256 ^ init.length * (top.toNat % 128) + 256 ^ init.length * (128 * (top.toNat / 128)) := by
    rw [← Nat.mul_add, Nat.mod_add_div]
  have hnone : top.toNat % 128 = 0 → 256 ^ init.length * (top.toNat % 128) = 0 := fun h => by rw [h, Nat.mul_zero]
  have hsome := Nat.le_mul_of_pos_right (m := top.toNat % 128) (256 ^ init.length)
  rw [Bool.eq_false_iff, ne_eq, hmin, Encodes, setVch, List.getLast?_concat]
  rw [List.length_append, List.length_singleton, pow_succ] at *
  simp only [ne_eq, (signBits top).1, ite_not, Nat.add_sub_cancel]
  by_cases h : top.toNat < 128
  · rw [Nat.div_eq_of_lt h] at htop
    rw [if_pos h]
    split <;> omega
  · have htwo := top.toNat_lt
    rw [show top.toNat / 128 = 1 by omega] at htop
    rw [if_neg h]
    split <;> omega

theorem absBytes_spec (fuel : Nat) {m : Nat} (hlt : m < 256 ^ fuel) :
    decode (absBytes fuel m) = m ∧ 256 ^ (absBytes fuel m).length ≤ max 1 (256 * m) := by
  induction fuel generalizing m with
  | zero => simp_all [absBytes, decode]
  | succ fuel ih =>
    rw [absBytes]
    split
    · simp [decode, *]
    · obtain ⟨hdecode, hwidth⟩ := ih (Nat.div_lt_of_lt_mul (by rwa [pow_succ, Nat.mul_comm] at hlt))
      rw [decode, hdecode, List.length_cons, pow_succ, UInt8.toNat_ofNat']
      omega

theorem encodes_serialize (hn : n.natAbs < 2 ^ 63) : Encodes (serialize n) n := by
  obtain ⟨hdecode, hwidth⟩ := absBytes_spec 8 (show n.natAbs < _ by omega)
  rw [serialize]
  split
  · simp [Encodes, decode, *]
  generalize absBytes 8 n.natAbs = result at *
  rcases List.eq_nil_or_concat' result with rfl | ⟨init, top, rfl⟩
  · simp only [decode] at hdecode
    omega
  have hsign := decode_concat_lt_iff init top
  have hlt := decode_lt (init ++ [top])
  have htop := decode_concat init top
  rw [hdecode] at hsign hlt htop
  rw [List.length_append, List.length_singleton, pow_succ] at hsign hwidth hlt
  simp only [List.getLastD_concat, List.dropLast_concat, ne_eq, (signBits top).1, ite_not]
  split
  · next h =>
    have hmul := Nat.mul_add (256 ^ init.length) top.toNat 128
    split <;> simp [Encodes, decode_concat, (signBits top).2.2, Nat.mod_eq_of_lt h, pow_succ, *] <;> omega
  · rw [Encodes, decode_concat, hdecode]
    simp only [List.length_append, List.length_singleton, pow_succ]
    split <;> simp <;> omega

/-- Within 64 bits the minimal encodings are exactly what `serialize` writes. -/
theorem minimal_iff_serialize (vch : Bytes) (n : Int) (limit : Nat) :
    vch.length ≤ 8 ∧ ofVch vch true limit = some n ↔
      n.natAbs < 2 ^ 63 ∧ vch = serialize n ∧ vch.length ≤ limit := by
  have hof : ofVch vch true limit = some n ↔ Encodes vch n ∧ vch.length ≤ limit := by
    simp [ofVch, encodes_iff, and_comm]
  rw [hof]
  constructor
  · rintro ⟨hlength, he, hlimit⟩
    have hn := (he.length_le_iff 8).mp hlength
    exact ⟨by omega, he.unique (encodes_serialize (by omega)), hlimit⟩
  · rintro ⟨hn, rfl, hlimit⟩
    have he := encodes_serialize hn
    exact ⟨(he.length_le_iff 8).mpr (by omega), he, hlimit⟩

end Byze.CScriptNum
