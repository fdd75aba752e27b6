import SiteTree.Number.Shortest
import SiteTree.Number.Written
import SiteTree.Text.Printable
import SiteTree.Text.Split

/-!
What a plain scalar means: nothing, a truth value, a number, or its text.
-/

namespace SiteTree.Yaml

/-- Whole numbers beyond 64 bits are kept apart, because few places take them. -/
inductive Plain where
  | null
  | bool (b : Bool)
  | whole (n : Int)
  | huge (n : Int)
  | real (f : Float)
  | text (s : String)
  deriving Repr

namespace Plain

open Text Number

def isNull (s : String) : Bool := ["null", "Null", "NULL", "~"].contains s

def bool? (s : String) : Option Bool :=
  if ["true", "True", "TRUE"].contains s then some true
  else if ["false", "False", "FALSE"].contains s then some false
  else none

def based? (s : List Char) : Option Nat :=
  match s with
  | '0' :: 'x' :: r => digits? 16 r
  | '0' :: 'o' :: r => digits? 8 r
  | '0' :: 'b' :: r => digits? 2 r
  | _ => none

def dropSign : List Char → List Char
  | '-' :: r => r
  | '+' :: r => r
  | s => s

/-- A zero in front of other digits makes a text. -/
def isPadded (s : List Char) : Bool :=
  match dropSign s with
  | '0' :: c :: r => (c :: r).all isDigit
  | _ => false

/-- The size of a whole number, in any base, without its sign. -/
def magnitude? (padded : Bool) (s : List Char) : Option Nat :=
  (based? s).or (if padded then none else digits? 10 s)

def int? (s : List Char) : Option Int :=
  match s with
  | '-' :: r => (magnitude? (isPadded s) r).map fun n => -(n : Int)
  | '+' :: r => (magnitude? (isPadded s) r).map fun n => (n : Int)
  | r => (magnitude? (isPadded s) r).map fun n => (n : Int)

def finite? (s : List Char) : Option Float := (unsigned? s).filter fun f => !f.isInf

def real? (s : String) : Option Float :=
  if [".inf", ".Inf", ".INF", "+.inf", "+.Inf", "+.INF"].contains s then
    some infinity
  else if ["-.inf", "-.Inf", "-.INF"].contains s then some (-infinity)
  else if [".nan", ".NaN", ".NAN"].contains s then some notNumber
  else match s.toList with
    | '-' :: r => (finite? r).map fun f => -f
    | '+' :: r => finite? r
    | r => finite? r

def fits (n : Int) : Bool := -(twoTo 63) ≤ n && n < twoTo 64

def fitsDouble (n : Int) : Bool := -(twoTo 127) ≤ n && n < twoTo 128

def whole? (s : String) : Option Plain :=
  match int? s.toList with
  | some n => if fits n then some (.whole n) else if fitsDouble n then some (.huge n) else none
  | none => none

def ofText (s : String) : Plain :=
  if s.isEmpty || isNull s then .null
  else match bool? s with
    | some b => .bool b
    | none => match whole? s with
      | some p => p
      | none =>
        if isPadded s.toList then .text s
        else match real? s with
          | some f => .real f
          | none => .text s

def realText (f : Float) : String :=
  if f.isNaN then "NaN"
  else if f.isInf then (if f < 0.0 then "-inf" else "inf")
  else floatText .positional f

def describe : Plain → String
  | .null => "unit value"
  | .bool b => "boolean \x60" ++ (if b then "true" else "false") ++ "\x60"
  | .whole n => "integer \x60" ++ toString n ++ "\x60"
  | .huge n => "integer \x60" ++ toString n ++ "\x60 as " ++ (if n < 0 then "i128" else "u128")
  | .real f => "floating point \x60" ++ realText f ++ "\x60"
  | .text s => "string " ++ quoted s

end Plain

end SiteTree.Yaml
