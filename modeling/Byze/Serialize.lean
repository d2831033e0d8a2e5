import Byze.Lib.LittleEndian

/-! Byte strings and the stream encodings of integers, strings and vectors. -/

namespace Byze

abbrev Bytes := List UInt8

/-- The white space of `IsSpace`, which is also what separates the words of a stream. -/
def isSpace (c : UInt8) : Bool :=
  c == 0x20 || c == 0x0c || c == 0x0a || c == 0x0d || c == 0x09 || c == 0x0b

def Uint256 := { b : Bytes // b.length = 32 }

instance : DecidableEq Uint256 := inferInstanceAs (DecidableEq { b : Bytes // b.length = 32 })

def Uint256.fill (b : UInt8) : Uint256 := ⟨List.replicate 32 b, List.length_replicate⟩

def Uint256.zero : Uint256 := Uint256.fill 0

def writeCompactSize (nSize : Nat) : Bytes :=
  if nSize < 253 then [UInt8.ofNat nSize]
  else if nSize ≤ 0xffff then 253 :: LittleEndian.encode 2 nSize
  else if nSize ≤ 0xffffffff then 254 :: LittleEndian.encode 4 nSize
  else 255 :: LittleEndian.encode 8 nSize

def getSizeOfCompactSize (nSize : Nat) : Nat :=
  if nSize < 253 then 1
  else if nSize ≤ 0xffff then 1 + 2
  else if nSize ≤ 0xffffffff then 1 + 4
  else 1 + 8

@[simp] theorem writeCompactSize_length (nSize : Nat) :
    (writeCompactSize nSize).length = getSizeOfCompactSize nSize := by
  simp only [writeCompactSize, getSizeOfCompactSize]
  split
  · rfl
  split
  · simp
  split
  · simp
  · simp

theorem getSizeOfCompactSize_pos (nSize : Nat) : 1 ≤ getSizeOfCompactSize nSize := by
  simp only [getSizeOfCompactSize]
  split <;> try split
  all_goals try split
  all_goals omega

variable {nSize : Nat}

theorem getSizeOfCompactSize_eq_one (h : nSize < 253) : getSizeOfCompactSize nSize = 1 := if_pos h

theorem getSizeOfCompactSize_eq_five (h : 0xffff < nSize) (hle : nSize ≤ 0xffffffff) :
    getSizeOfCompactSize nSize = 5 := by
  rw [getSizeOfCompactSize, if_neg (by omega), if_neg (Nat.not_le.mpr h), if_pos hle]

def serializeUint32 (n : UInt32) : Bytes := LittleEndian.encode 4 n.toNat

def serializeInt64 (n : Int) : Bytes := LittleEndian.encode 8 (n % 2 ^ 64).toNat

def serializeBytes (v : Bytes) : Bytes := writeCompactSize v.length ++ v

def serializeVector {α : Type} (serialize : α → Bytes) (v : List α) : Bytes :=
  writeCompactSize v.length ++ v.flatMap serialize

@[simp] theorem serializeUint32_length (n : UInt32) : (serializeUint32 n).length = 4 := by
  simp [serializeUint32]

@[simp] theorem serializeInt64_length (n : Int) : (serializeInt64 n).length = 8 := by
  simp [serializeInt64]

@[simp] theorem serializeBytes_length (v : Bytes) :
    (serializeBytes v).length = getSizeOfCompactSize v.length + v.length := by
  simp [serializeBytes]

@[simp] theorem serializeVector_length {α : Type} (serialize : α → Bytes) (v : List α) :
    (serializeVector serialize v).length =
      getSizeOfCompactSize v.length + (v.map (fun x => (serialize x).length)).sum := by
  simp [serializeVector]

end Byze
