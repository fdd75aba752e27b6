import SiteTree.Template.Given
import SiteTree.Text.Casing

/-!
Tests on values.
-/

namespace SiteTree.Template

open Value

/-- A test answers whether something is so, of a value and what it is given besides. -/
abbrev Test := Value → List Value → Outcome Bool

namespace Test

def alone (p : Value → Bool) : Test := fun v given =>
  if given.isEmpty then .ok (p v) else Given.tooMany

def beside (p : Value → Value → Bool) : Test := fun v given =>
  match given with
  | [] => Given.missing
  | [w] => .ok (p v w)
  | _ => Given.tooMany

def isBool : Value → Bool
  | .bool _ => true
  | _ => false

def isWhole : Value → Bool
  | .whole _ => true
  | _ => false

def isReal : Value → Bool
  | .real _ => true
  | _ => false

def isText : Value → Bool
  | .text .. => true
  | _ => false

def isList : Value → Bool
  | .list _ | .group .. => true
  | _ => false

def isTable : Value → Bool
  | .map _ | .space _ => true
  | _ => false

def isNothing : Value → Bool
  | .nothing => true
  | _ => false

def isTruth (b : Bool) : Value → Bool
  | .bool c => b == c
  | _ => false

def isOdd (v : Value) : Bool := v.whole?.any (· % 2 != 0)

def isEven (v : Value) : Bool := v.whole?.any (· % 2 == 0)

def divides (v w : Value) : Bool :=
  match operands? v w with
  | some (.whole m n) => n != 0 && m % n == 0
  | some (.real f g) => Operator.realRemainder f g == 0.0
  | _ => false

def startsWith (v w : Value) : Bool := v.display.startsWith w.display

def endsWith (v w : Value) : Bool := w.display.toList.isSuffixOf v.display.toList

def isSame (v w : Value) : Bool := equal v w && v.rank == w.rank && isReal v == isReal w

def isWithin (v w : Value) : Bool :=
  match Operator.holds w v with
  | .ok b => b
  | .error _ => false

end Test

def Test.names : List String :=
  ["defined", "undefined", "none", "safe", "escaped", "boolean", "odd", "even", "divisibleby",
   "number", "integer", "int", "float", "string", "sequence", "iterable", "mapping",
   "startingwith", "endingwith", "lower", "upper", "sameas", "eq", "equalto", "==", "ne", "!=",
   "lt", "lessthan", "<", "le", "<=", "gt", "greaterthan", ">", "ge", ">=", "in", "true", "false",
   "filter", "test"]

open Test in
def Test.ofName? (filters : List String) (name : String) : Option Test :=
  match name with
  | "defined" => some (alone (!·.isUndefined))
  | "undefined" => some (alone isUndefined)
  | "none" => some (alone isNothing)
  | "safe" | "escaped" => some (alone isSafe)
  | "boolean" => some (alone isBool)
  | "odd" => some (alone isOdd)
  | "even" => some (alone isEven)
  | "divisibleby" => some (beside divides)
  | "number" => some (alone fun v => isWhole v || isReal v)
  | "integer" | "int" => some (alone isWhole)
  | "float" => some (alone isReal)
  | "string" => some (alone isText)
  | "sequence" => some (alone isList)
  | "iterable" => some (alone (·.items?.isSome))
  | "mapping" => some (alone isTable)
  | "startingwith" => some (beside startsWith)
  | "endingwith" => some (beside endsWith)
  | "lower" => some (alone (·.display.toList.all Text.isLowerChar))
  | "upper" => some (alone (·.display.toList.all Text.isUpperChar))
  | "sameas" => some (beside isSame)
  | "eq" | "equalto" | "==" => some (beside equal)
  | "ne" | "!=" => some (beside fun v w => !equal v w)
  | "lt" | "lessthan" | "<" => some (beside fun v w => (order v w).isLT)
  | "le" | "<=" => some (beside fun v w => (order v w).isLE)
  | "gt" | "greaterthan" | ">" => some (beside fun v w => (order v w).isGT)
  | "ge" | ">=" => some (beside fun v w => (order v w).isGE)
  | "in" => some (beside isWithin)
  | "true" => some (alone (isTruth true))
  | "false" => some (alone (isTruth false))
  | "filter" => some (alone (·.str?.any filters.contains))
  | "test" => some (alone (·.str?.any names.contains))
  | _ => none

end SiteTree.Template
