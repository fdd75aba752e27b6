import SiteTree.Number.Nearest

/-!
Numbers as they are written: digits in a base, a decimal point among them, and an exponent.
-/

namespace SiteTree.Number

def isDigit (c : Char) : Bool := '0' ≤ c && c ≤ '9'

def digitValue (c : Char) : Nat := c.toNat - '0'.toNat

def hexValue? (c : Char) : Option Nat :=
  if isDigit c then some (digitValue c)
  else if 'a' ≤ c && c ≤ 'f' then some (c.toNat - 'a'.toNat + 10)
  else if 'A' ≤ c && c ≤ 'F' then some (c.toNat - 'A'.toNat + 10)
  else none

def digit? (base : Nat) (c : Char) : Option Nat := (hexValue? c).filter (· < base)

def digits? (base : Nat) (s : List Char) : Option Nat :=
  if s.isEmpty then none else s.foldlM (fun n c => (digit? base c).map fun d => n * base + d) 0

/-- Digits with a point among or beside them: their value, the places after the point, the rest. -/
def decimal? (s : List Char) : Option (Nat × Nat × List Char) :=
  let whole := s.takeWhile isDigit
  let r := s.dropWhile isDigit
  let (part, r) := match r with
    | '.' :: r => (r.takeWhile isDigit, r.dropWhile isDigit)
    | r => ([], r)
  if whole.isEmpty && part.isEmpty then none
  else (digits? 10 (whole ++ part)).map fun n => (n, part.length, r)

def signedDigits? : List Char → Option Int
  | '-' :: r => (digits? 10 r).map fun n => -(n : Int)
  | '+' :: r => (digits? 10 r).map fun n => (n : Int)
  | r => (digits? 10 r).map fun n => (n : Int)

def exponent? : List Char → Option Int
  | [] => some 0
  | c :: r => if c = 'e' || c = 'E' then signedDigits? r else none

/-- The number nearest to a decimal writing, which may be out of range. -/
def unsigned? (s : List Char) : Option Float := do
  let (n, places, r) ← decimal? s
  let e ← exponent? r
  some (ofDecimal n (e - places))

def infinity : Float := Float.ofBits 0x7FF0000000000000

def notNumber : Float := Float.ofBits 0x7FF8000000000000

/-- Infinity and the lack of a number have names, which may be written in any case. -/
def named? (s : List Char) : Option Float :=
  let name := String.ofList (s.map Char.toLower)
  if name = "inf" || name = "infinity" then some infinity
  else if name = "nan" then some notNumber
  else none

def real? : List Char → Option Float
  | '-' :: r => ((named? r).or (unsigned? r)).map fun f => -f
  | '+' :: r => (named? r).or (unsigned? r)
  | r => (named? r).or (unsigned? r)

end SiteTree.Number
