import Byze.Bech32
import Mathlib.Data.List.Iterate

/-! Locating wrong characters of a Bech32 string: the tables of the field with 1024
elements, the syndromes of a residue, and the search for one or two errors. -/

namespace Byze

/-- Each entry is the position of its index among the powers, and -1 for zero. -/
def logTable (size : Nat) (exp : List Nat) : List Int :=
  exp.zipIdx.foldl (fun log e => log.set e.1 e.2) ((List.replicate size 0).set 0 (-1))

def gf32Double (v : Nat) : Nat := if (v <<< 1) &&& 32 ≠ 0 then (v <<< 1) ^^^ 41 else v <<< 1

def gf32Exp : List Nat := List.iterate gf32Double 1 31

def gf32Log : List Int := logTable 32 gf32Exp

def gf32Mul (a c : Nat) : Nat :=
  if a ≠ 0 then gf32Exp.getD ((gf32Log.getD a 0 + gf32Log.getD c 0) % 31).toNat 0 else 0

/-- The product with `(e)` of an element that is two elements of the smaller field. -/
def gf1024Step (v : Nat) : Nat :=
  let v0 := v &&& 31
  let v1 := v >>> 5
  let v0n := gf32Mul v1 23
  let v1n := gf32Mul v1 9 ^^^ v0
  (v1n <<< 5) ||| v0n

def gf1024Exp : List Nat := List.iterate gf1024Step 1 1023

def gf1024Log : List Int := logTable 1024 gf1024Exp

def expAt (i : Nat) : Nat := gf1024Exp.getD i 0

def logAt (x : Nat) : Int := gf1024Log.getD x 0

def syndromeConst (k shift : Nat) : Nat :=
  let b := (logAt (1 <<< shift)).toNat
  let c0 := expAt ((997 * k + b) % 1023)
  let c1 := expAt ((998 * k + b) % 1023)
  let c2 := expAt ((999 * k + b) % 1023)
  c2 <<< 20 ||| c1 <<< 10 ||| c0

def syndromeConsts : List Nat := (List.range 25).map fun i => syndromeConst (i / 5 + 1) (i % 5)

def syndrome (residue : Nat) : Nat :=
  let low := residue &&& 0x1f
  (List.range 25).foldl
    (fun result i => result ^^^ (if (residue >>> (5 + i)) &&& 1 ≠ 0 then syndromeConsts.getD i 0 else 0))
    (low ^^^ (low <<< 10) ^^^ (low <<< 20))

def scaleBy (s : Nat) (logS : Int) (p : Nat) : Nat := if s = 0 then 0 else expAt ((logS + p) % 1023).toNat

/-- The round of the search for two errors with the first one at `p1` from the right. -/
def secondError (length s0 s1 s2 p1 : Nat) : Option Nat :=
  let s2s1p1 := s2 ^^^ scaleBy s1 (logAt s1) p1
  let s1s0p1 := s1 ^^^ scaleBy s0 (logAt s0) p1
  if s2s1p1 = 0 ∨ s1s0p1 = 0 then none
  else
    let p2 := ((logAt s2s1p1 - logAt s1s0p1 + 1023) % 1023).toNat
    if length ≤ p2 ∨ p1 = p2 then none
    else
      let s1s0p2 := s1 ^^^ scaleBy s0 (logAt s0) p2
      if s1s0p2 = 0 then none
      else
        let invP1P2 := 1023 - logAt (expAt p1 ^^^ expAt p2)
        let logE2 := logAt s1s0p1 + invP1P2 + (1023 - 997) * p2
        let logE1 := logAt s1s0p2 + invP1P2 + (1023 - 997) * p1
        if logE2 % 33 ≠ 0 ∨ logE1 % 33 ≠ 0 then none else some p2

/-- The positions, from the right, of one or two errors that explain a residue. -/
def errorPositions (length residue : Nat) : List Nat :=
  let syn := syndrome residue
  let s0 := syn &&& 0x3ff
  let s1 := (syn >>> 10) &&& 0x3ff
  let s2 := syn >>> 20
  if logAt s0 ≠ -1 ∧ logAt s1 ≠ -1 ∧ logAt s2 ≠ -1 ∧ (2 * logAt s1 - logAt s2 - logAt s0 + 2046) % 1023 = 0 then
    let p1 := ((logAt s1 - logAt s0 + 1023) % 1023).toNat
    let logE1 := logAt s0 + (1023 - 997) * p1
    if p1 < length ∧ logE1 % 33 = 0 then [p1] else []
  else
    match (List.range length).findSome? fun p1 => (secondError length s0 s1 s2 p1).map (p1, ·) with
    | some (p1, p2) => if p2 < p1 then [p1, p2] else [p2, p1]
    | none => []

def checksumMessage (errorEncoding : Option Encoding) : String :=
  if errorEncoding = some .bech32m then "Invalid Bech32m checksum"
  else if errorEncoding = some .bech32 then "Invalid Bech32 checksum"
  else "Invalid checksum"

/-- The encodings are tried in turn, and the one with the fewest errors is kept. -/
def locateChecksum (size : Nat) (hrp : Bytes) (values : List Nat) :
    List Encoding → List Nat → Option Encoding → String × List Nat
  | [], errorLocations, errorEncoding => (checksumMessage errorEncoding, errorLocations)
  | encoding :: encodings, errorLocations, errorEncoding =>
    let residue := polyMod (preparePolynomialCoefficients hrp values) ^^^ encodingConstant encoding
    if residue = 0 then ("", [])
    else
      let possibleErrors := (errorPositions values.length residue).map fun p => size - p - 1
      if errorLocations = [] ∨ (possibleErrors ≠ [] ∧ possibleErrors.length < errorLocations.length) then
        locateChecksum size hrp values encodings possibleErrors
          (if possibleErrors ≠ [] then some encoding else errorEncoding)
      else locateChecksum size hrp values encodings errorLocations errorEncoding

def locateErrors (str : Bytes) : String × List Nat :=
  if charLimit < str.length then
    ("Bech32 string too long", (List.range (str.length - charLimit)).map (charLimit + ·))
  else if checkCharacters 0 false false str ≠ [] then
    ("Invalid character or mixed case", checkCharacters 0 false false str)
  else
    match rfind separator str with
    | none => ("Missing separator", [])
    | some pos =>
      if pos = 0 ∨ str.length ≤ pos + checksumSize then ("Invalid separator position", [pos])
      else
        match (str.drop (pos + 1)).mapM charsetRevAt with
        | none =>
          ("Invalid Base 32 character",
            [pos + 1 + (str.drop (pos + 1)).findIdx fun c => (charsetRevAt c).isNone])
        | some values =>
          locateChecksum str.length ((str.take pos).map lowerCase) values [.bech32, .bech32m] [] none

end Byze
