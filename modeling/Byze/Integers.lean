import Byze.Serialize

/-! Integers of variable length: the readers accept what the writers write. -/

namespace Byze

def maxSize : Nat := 0x02000000

/-- An integer of `width` bytes that no shorter form holds. -/
def readCanonical (width least : Nat) (s : Bytes) : Option (Nat × Bytes) :=
  if width ≤ s.length ∧ least ≤ LittleEndian.decode (s.take width) then
    some (LittleEndian.decode (s.take width), s.drop width)
  else none

def readSizeForms : Bytes → Option (Nat × Bytes)
  | [] => none
  | chSize :: s =>
    if chSize < 253 then some (chSize.toNat, s)
    else if chSize = 253 then readCanonical 2 253 s
    else if chSize = 254 then readCanonical 4 0x10000 s
    else readCanonical 8 0x100000000 s

def readCompactSize (s : Bytes) (rangeCheck : Bool) : Option (Nat × Bytes) :=
  (readSizeForms s).filter fun size => !(rangeCheck && size.1 > maxSize)

def getSizeOfVarInt (n : Nat) : Nat := if n ≤ 0x7f then 1 else getSizeOfVarInt (n / 128 - 1) + 1

/-- The digits are found from the last to the first. -/
def writeVarIntDigits (n : Nat) (tmp : Bytes) : Bytes :=
  let digit := UInt8.ofNat (n % 128 + if tmp = [] then 0 else 128)
  if n ≤ 0x7f then digit :: tmp else writeVarIntDigits (n / 128 - 1) (digit :: tmp)

def writeVarInt (n : Nat) : Bytes := writeVarIntDigits n []

def readVarIntDigits (n : Nat) : Bytes → Option (Nat × Bytes)
  | [] => none
  | chData :: s =>
    if n > (2 ^ 64 - 1) / 128 then none
    else if chData.toNat < 128 then some (n * 128 + chData.toNat % 128, s)
    else if n * 128 + chData.toNat % 128 = 2 ^ 64 - 1 then none
    else readVarIntDigits (n * 128 + chData.toNat % 128 + 1) s

def readVarInt : Bytes → Option (Nat × Bytes) := readVarIntDigits 0

variable {n m d : Nat} {s rest p : Bytes}

theorem readCanonical_eq_some_iff {width least : Nat} : readCanonical width least s = some (n, rest) ↔
    least ≤ n ∧ n < 256 ^ width ∧ s = LittleEndian.encode width n ++ rest := by
  simp only [readCanonical, Option.ite_none_right_eq_some, Option.some.injEq, Prod.mk.injEq]
  constructor
  · rintro ⟨⟨hlength, hleast⟩, rfl, rfl⟩
    have hlt := LittleEndian.decode_lt (s.take width)
    have hencode := LittleEndian.encode_decode (s.take width)
    rw [List.length_take_of_le hlength] at hlt hencode
    exact ⟨hleast, hlt, by rw [hencode, List.take_append_drop]⟩
  · rintro ⟨hleast, hlt, rfl⟩
    simp [List.take_left', List.drop_left', LittleEndian.decode_encode hlt, hleast]

theorem readSizeForms_eq_some_iff : readSizeForms s = some (n, rest) ↔
    n < 2 ^ 64 ∧ s = writeCompactSize n ++ rest := by
  cases s with
  | nil => grind [readSizeForms, writeCompactSize]
  | cons chSize s =>
    have hch := chSize.toNat_lt
    simp only [readSizeForms, writeCompactSize, UInt8.lt_iff_toNat_lt, ← UInt8.toNat_inj, UInt8.reduceToNat]
    split_ifs <;> simp [readCanonical_eq_some_iff, ← UInt8.toNat_inj, *] <;> grind

/-- The reader is at `m` after the bytes `p`, and so the writer begins every number that goes on from there. -/
structure VarIntDigits (p : Bytes) (m : Nat) : Prop where
  read : ∀ s, readVarInt (p ++ s) = readVarIntDigits m s
  write : ∀ d < 128, ∀ tmp,
    writeVarIntDigits (m * 128 + d) tmp = p ++ UInt8.ofNat (d + if tmp = [] then 0 else 128) :: tmp

theorem VarIntDigits.nil : VarIntDigits [] 0 where
  read _ := rfl
  write d hd tmp := by
    rw [Nat.zero_mul, Nat.zero_add, writeVarIntDigits, if_pos (Nat.le_of_lt_succ hd), Nat.mod_eq_of_lt hd]
    rfl

theorem VarIntDigits.step (h : VarIntDigits p m) (hd : d < 128) (hm : m * 128 + d < 2 ^ 64 - 1) :
    VarIntDigits (p ++ [UInt8.ofNat (d + 128)]) (m * 128 + d + 1) where
  read s := by
    have hbyte : (UInt8.ofNat (d + 128)).toNat = d + 128 := UInt8.toNat_ofNat_of_lt' (show _ < 256 by omega)
    rw [List.append_assoc, h.read, List.singleton_append, readVarIntDigits, hbyte, if_neg (by omega),
      if_neg (by omega), Nat.add_mod_right, Nat.mod_eq_of_lt hd, if_neg hm.ne]
  write e he tmp := by
    rw [writeVarIntDigits, if_neg (by omega), show _ % 128 = e by omega,
      show _ / 128 - 1 = m * 128 + d by omega, h.write d hd, if_neg (List.cons_ne_nil _ _), List.append_assoc]
    rfl

theorem exists_varIntDigits (hn : n < 2 ^ 64) : ∃ p, VarIntDigits p (n / 128) := by
  induction n using Nat.strongRecOn with
  | ind n ih =>
    by_cases hsmall : n < 128
    · exact ⟨[], Nat.div_eq_of_lt hsmall ▸ .nil⟩
    · obtain ⟨p, hp⟩ := ih (n / 128 - 1) (by omega) (by omega)
      have hstep := hp.step (Nat.mod_lt (n / 128 - 1) (by decide)) (by omega)
      rw [Nat.div_add_mod', Nat.sub_add_cancel (by omega)] at hstep
      exact ⟨_, hstep⟩

theorem VarIntDigits.write_of_read (hp : VarIntDigits p m) (h : readVarIntDigits m s = some (n, rest)) :
    n < 2 ^ 64 ∧ p ++ s = writeVarInt n ++ rest := by
  induction s generalizing m p with
  | nil => cases h
  | cons chData s ih =>
    have hlt := chData.toNat_lt
    have hd := Nat.mod_lt chData.toNat (by decide : 128 > 0)
    rw [readVarIntDigits] at h
    split at h
    · cases h
    split at h
    · next hsmall =>
      cases h
      rw [writeVarInt, hp.write _ hd, if_pos rfl, Nat.add_zero, Nat.mod_eq_of_lt hsmall, UInt8.ofNat_toNat]
      exact ⟨by omega, by simp⟩
    split at h
    · cases h
    · have hstep := hp.step hd (by omega)
      rw [show chData.toNat % 128 + 128 = chData.toNat by omega, UInt8.ofNat_toNat] at hstep
      rw [List.append_cons]
      exact ih hstep h

theorem readVarInt_eq_some_iff : readVarInt s = some (n, rest) ↔ n < 2 ^ 64 ∧ s = writeVarInt n ++ rest := by
  refine ⟨VarIntDigits.nil.write_of_read, ?_⟩
  rintro ⟨hn, rfl⟩
  obtain ⟨p, hp⟩ := exists_varIntDigits hn
  have hd := Nat.mod_lt n (by decide : 128 > 0)
  have hwrite := hp.write _ hd []
  rw [Nat.div_add_mod', if_pos rfl] at hwrite
  have hbyte : (UInt8.ofNat (n % 128)).toNat = n % 128 := UInt8.toNat_ofNat_of_lt' (show _ < 256 by omega)
  rw [writeVarInt, hwrite, List.append_assoc, hp.read, List.singleton_append, readVarIntDigits, Nat.add_zero, hbyte,
    if_neg (by omega), if_pos hd, Nat.mod_mod, Nat.div_add_mod']

theorem writeVarIntDigits_length (tmp : Bytes) :
    (writeVarIntDigits n tmp).length = getSizeOfVarInt n + tmp.length := by
  fun_induction writeVarIntDigits n tmp with
  | case1 n tmp digit h => rw [getSizeOfVarInt, if_pos h, List.length_cons, Nat.add_comm]
  | case2 n tmp digit h ih =>
    rw [ih, getSizeOfVarInt.eq_def n, if_neg h, List.length_cons]
    omega

/-- What a reader accepts is what the writer writes for the number read, of the length foreseen. -/
theorem integer_encodings (s rest : Bytes) (n : Nat) :
    (readVarInt s = some (n, rest) ↔ n < 2 ^ 64 ∧ s = writeVarInt n ++ rest) ∧
    (readCompactSize s false = some (n, rest) ↔ n < 2 ^ 64 ∧ s = writeCompactSize n ++ rest) ∧
    (writeVarInt n).length = getSizeOfVarInt n ∧ (writeCompactSize n).length = getSizeOfCompactSize n := by
  refine ⟨readVarInt_eq_some_iff, ?_, writeVarIntDigits_length [], writeCompactSize_length n⟩
  rw [← readSizeForms_eq_some_iff]
  simp [readCompactSize]

end Byze
