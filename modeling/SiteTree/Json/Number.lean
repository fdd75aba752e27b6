import SiteTree.Json.Basic
import SiteTree.Number.Written

/-!
Reading numbers. Up to 64 bits of digits are kept exactly and the rest only counted; a number
that is not whole is the kept digits as a floating point number, scaled by a power of ten in one
rounded step, or in several when the power is out of range.
-/

namespace SiteTree.Json

open Number

/-- The digits kept so far and the power of ten still to apply. -/
structure Kept where
  digits : Nat
  exponent : Int
  deriving DecidableEq, Repr

def maxDigits : Nat := twoTo 64 - 1

/-- Keeps digits as long as they fit, and answers whether all of them did. -/
def keepDigits (shift : Int) : Kept → List Char → Kept × Bool
  | k, [] => (k, true)
  | k, c :: r =>
    let more := k.digits * 10 + digitValue c
    if maxDigits < more then (k, false)
    else keepDigits shift ⟨more, k.exponent + shift⟩ r

def powerOfTen (n : Nat) : Float := ofDecimal 1 n

/-- Divides by the largest power of ten until the rest of the exponent is in range. -/
def divideDown : Nat → Float → Nat → Float
  | 0, f, _ => f
  | fuel + 1, f, e =>
    if e ≤ 308 then f / powerOfTen e
    else if f == 0.0 then f
    else divideDown fuel (f / powerOfTen 308) (e - 308)

/-- Too large a number has no value. -/
def scale? (k : Kept) : Option Float :=
  let f := ofDecimal k.digits 0
  if k.exponent < 0 then
    some (divideDown 5 f k.exponent.natAbs)
  else if 308 < k.exponent then
    if f == 0.0 then some f else none
  else
    let g := f * powerOfTen k.exponent.natAbs
    if g.isInf then none else some g

def signed (negative : Bool) (f : Float) : Float := if negative then -f else f

/-- The sign and digits of a written exponent. Beyond 31 bits only its sign matters. -/
def applyExponent? (k : Kept) (below : Bool) (digits : List Char) : Option Float :=
  let e := digits.foldl (fun n c => n * 10 + digitValue c) 0
  if twoTo 31 - 1 < e then
    if k.digits ≠ 0 && !below then none else some 0.0
  else scale? ⟨k.digits, if below then k.exponent - e else k.exponent + e⟩

def readExponent? (negative : Bool) (k : Kept) : List Char → Option (Json × List Char)
  | c :: r =>
    if c = 'e' || c = 'E' then
      let (below, r) := match r with
        | '+' :: r => (false, r)
        | '-' :: r => (true, r)
        | r => (false, r)
      let digits := r.takeWhile isDigit
      if digits.isEmpty then none
      else (applyExponent? k below digits).map fun f =>
        (.real (signed negative f), r.dropWhile isDigit)
    else (scale? k).map fun f => (.real (signed negative f), c :: r)
  | [] => (scale? k).map fun f => (.real (signed negative f), [])

/-- What may follow the whole part. -/
def readFraction? (negative : Bool) (k : Kept) : List Char → Option (Json × List Char)
  | '.' :: r =>
    let digits := r.takeWhile isDigit
    if digits.isEmpty then none
    else readExponent? negative (keepDigits (-1) k digits).1 (r.dropWhile isDigit)
  | r => readExponent? negative k r

def startsFraction : List Char → Bool
  | c :: _ => c = '.' || c = 'e' || c = 'E'
  | [] => false

/-- A whole number of at most 64 bits; minus zero is not one. -/
def whole? (negative : Bool) (n : Nat) : Option Int :=
  if !negative then some n
  else if n ≠ 0 && n ≤ twoTo 63 then some (-n)
  else none

def readUnsigned? (negative : Bool) (s : List Char) : Option (Json × List Char) :=
  let digits := s.takeWhile isDigit
  let rest := s.dropWhile isDigit
  match digits with
  | [] => none
  | '0' :: _ :: _ => none
  | _ =>
    let (k, all) := keepDigits 0 ⟨0, 0⟩ digits
    if all then
      if startsFraction rest then readFraction? negative k rest
      else match whole? negative k.digits with
        | some n => some (.int n, rest)
        | none => some (.real (signed negative (ofDecimal k.digits 0)), rest)
    else
      let kept := if k.digits = 0 then 0 else (Nat.toDigits 10 k.digits).length
      readFraction? negative ⟨k.digits, ((digits.length - kept : Nat) : Int)⟩ rest

def readNumber? : List Char → Option (Json × List Char)
  | '-' :: r => readUnsigned? true r
  | r => readUnsigned? false r

end SiteTree.Json
