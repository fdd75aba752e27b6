import SiteTree.Number.Written
import SiteTree.Template.Given

/-!
Filters on numbers.
-/

namespace SiteTree.Template.Filter

open Number Value

def isNumber : Value → Bool
  | .whole _ | .real _ => true
  | _ => false

/-- Rounds to so many places; a half goes away from zero. -/
def round (places : Int) (v : Value) : Outcome Value :=
  match v with
  | .whole _ => .ok v
  | .real f =>
    let unit := ofDecimal 1 places.natAbs
    let unit := if 0 ≤ places then unit else 1.0 / unit
    .ok (.real ((unit * f).round / unit))
  | _ => refuse .badOperation ("cannot round value (" ++ v.kind ++ ")")

def abs (v : Value) : Outcome Value :=
  match v with
  | .whole n =>
    if fits n.natAbs then .ok (.whole n.natAbs) else refuse .badOperation "overflow on abs"
  | .real f => .ok (.real f.abs)
  | _ => refuse .badOperation "cannot get absolute value"

/-- A floating point number cut to a whole one, within 128 bits. -/
def cut (f : Float) : Int :=
  if f.isNaN then 0
  else if f.isInf then (if f < 0.0 then -(twoTo 127) else twoTo 127 - 1)
  else max (-(twoTo 127)) (min (twoTo 127 - 1) (wholePart f))

def int (v : Value) : Outcome Value :=
  match v with
  | .undefined | .nothing => .ok (.whole 0)
  | .bool b => .ok (.whole (if b then 1 else 0))
  | .whole _ => .ok v
  | .real f => .ok (.whole (cut f))
  | .text s _ => match (signedDigits? s.toList).filter fits with
    | some n => .ok (.whole n)
    | none => match real? s.toList with
      | some f => .ok (.whole (cut f))
      | none => refuse .badOperation "invalid float literal"
  | _ => refuse .badOperation ("cannot convert " ++ v.kind ++ " to integer")

def float (v : Value) : Outcome Value :=
  match v with
  | .undefined | .nothing => .ok (.real 0.0)
  | .text s _ => match Number.real? s.toList with
    | some f => .ok (.real f)
    | none => refuse .badOperation "invalid float literal"
  | v => match v.real? with
    | some f => .ok (.real f)
    | none => refuse .badOperation ("cannot convert " ++ v.kind ++ " to float")

end SiteTree.Template.Filter
