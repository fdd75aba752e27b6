import SiteTree.Json.Basic
import SiteTree.Number.Nearest
import SiteTree.Number.Shortest

/-!
The values that templates work with.
-/

namespace SiteTree.Template

open Number

/-- Safe text is written as it stands. Tables are kept in the order of their keys. What can change
while a template runs is known by a number. -/
inductive Value where
  | undefined
  | nothing
  | bool (b : Bool)
  | whole (n : Int)
  | real (f : Float)
  | text (s : String) (safe : Bool)
  | list (items : List Value)
  | map (fields : List (Value × Value))
  /-- Values that have the same key. -/
  | group (key : Value) (items : List Value)
  /-- The names that another template defines, and the text that it wrote. -/
  | imported (fields : List (Value × Value)) (written : String)
  | space (id : Nat)
  | loop (id : Nat)
  | callable (name : String) (id : Nat)
  | builtin (name : String)
  deriving Repr, Inhabited

namespace Value

def plain (s : String) : Value := .text s false

def str? : Value → Option String
  | .text s _ => some s
  | _ => none

def isUndefined : Value → Bool
  | .undefined => true
  | _ => false

def isSafe : Value → Bool
  | .text _ safe => safe
  | _ => false

/-- Missing values, false, zero and what has nothing in it do not hold. -/
def isTrue : Value → Bool
  | .undefined | .nothing => false
  | .bool b => b
  | .whole n => n != 0
  | .real f => f != 0.0
  | .text s _ => !s.isEmpty
  | .list items => !items.isEmpty
  | .map fields => !fields.isEmpty
  | _ => true

/-- The whole numbers of 128 bits. -/
def fits (n : Int) : Bool := -(twoTo 127) ≤ n && n < twoTo 127

def realOf (n : Int) : Float :=
  let f := ofDecimal n.natAbs 0
  if n < 0 then -f else f

def wholePart (f : Float) : Int :=
  let x := binary f
  let n := if 0 ≤ x.exponent then x.mantissa * twoTo x.exponent.toNat
    else x.mantissa / twoTo (-x.exponent).toNat
  if isNegative f then -(n : Int) else n

/-- Numbers and truth values count as floating point numbers. -/
def real? : Value → Option Float
  | .bool b => some (if b then 1.0 else 0.0)
  | .whole n => some (realOf n)
  | .real f => some f
  | _ => none

/-- Truth values, and numbers that are whole, count as whole numbers. -/
def whole? : Value → Option Int
  | .bool b => some (if b then 1 else 0)
  | .whole n => if fits n then some n else none
  | .real f =>
    if f.isFinite then
      let n := wholePart f
      if n.natAbs < twoTo 63 && realOf n == f then some n else none
    else none
  | _ => none

/-- Two values as an operator sees them. -/
inductive Operands where
  | whole (a b : Int)
  | real (a b : Float)
  | text (a b : String)

def operands? (a b : Value) : Option Operands :=
  match a, b with
  | .text s _, .text t _ => some (.text s t)
  | .real f, b => (real? b).map (.real f ·)
  | a, .real f => (real? a).map (.real · f)
  | a, b => (whole? a).bind fun m => (whole? b).map (.whole m ·)

mutual

def ofJson : Json → Value
  | .null => .nothing
  | .bool b => .bool b
  | .int n => .whole n
  | .real f => .real f
  | .text s => plain s
  | .list items => .list (ofJsons items)
  | .object fields => .map (ofFields fields)

def ofJsons : List Json → List Value
  | [] => []
  | j :: r => ofJson j :: ofJsons r

def ofFields : List (String × Json) → List (Value × Value)
  | [] => []
  | (k, j) :: r => (plain k, ofJson j) :: ofFields r

end

def kind : Value → String
  | .undefined => "undefined"
  | .nothing => "none"
  | .bool _ => "bool"
  | .whole _ | .real _ => "number"
  | .text .. => "string"
  | .list _ | .group .. => "sequence"
  | .map _ | .space _ => "map"
  | _ => "plain object"

end Value

end SiteTree.Template
