import SiteTree.Template.Filter.List
import SiteTree.Template.Filter.Number
import SiteTree.Template.Filter.Text
import SiteTree.Template.Test

/-!
The filters that templates can use, by their names.
-/

namespace SiteTree.Template

open Value

/-- A filter makes a value of another one and what it is given besides. -/
abbrev Filter := Value → Given → Outcome Value

namespace Filter

def names : List String :=
  ["safe", "escape", "e", "lower", "upper", "title", "capitalize", "replace", "length", "count",
   "dictsort", "items", "reverse", "trim", "join", "split", "lines", "default", "d", "round",
   "abs", "int", "float", "attr", "first", "last", "min", "max", "sort", "list", "string", "bool",
   "batch", "slice", "sum", "indent", "select", "reject", "selectattr", "rejectattr", "map",
   "groupby", "unique", "chain", "zip", "pprint", "tojson", "urlencode"]

def alone (f : Value → Outcome Value) : Filter := fun v g => do
  Given.between 0 0 g.values
  f v

def onText (f : List Char → List Char) : Filter :=
  alone fun v => .ok (plain (String.ofList (f v.display.toList)))

/-- A filter that is given at least and at most so many values besides. -/
def beside (least most : Nat) (f : Value → List Value → Outcome Value) : Filter := fun v g => do
  Given.between least most g.values
  f v g.values

/-- A filter that is given named values only. -/
def besideNamed (f : Given → Value → Outcome Value) : Filter := fun v g => do
  Given.between 0 0 g.plain
  f g v

def optionalText (v : Option Value) : Option String := (optional? v).map display

def length (v : Value) : Outcome Value :=
  match v.size? with
  | some n => .ok (.whole n)
  | none => refuse .badOperation ("cannot calculate length of value of type " ++ v.kind)

def replaceIn (v : Value) (given : List Value) : Outcome Value :=
  match given with
  | [old, new] => .ok (plain (replace v.display old.display new.display))
  | _ => Given.missing

def split (v : Value) (given : List Value) : Outcome Value := do
  let cuts ← (optional? given[1]?).mapM toWhole
  .ok (splitText v.display (optionalText given[0]?) cuts)

/-- A value stands for one that is missing, or for any that does not hold. -/
def default : Filter := fun v g => do
  g.onlyNamed ["boolean"]
  Given.between 0 2 g.plain
  let otherwise := (optional? g.plain[0]?).getD (plain "")
  let lax ← flagOr false (g.plain[1]?.or (g.named? "boolean"))
  .ok (if v.isUndefined || (lax && !v.isTrue) then otherwise else v)

def roundTo (v : Value) (given : List Value) : Outcome Value := do
  let places ← (optional? given[0]?).mapM toWhole
  round (places.getD 0) v

def part (v : Value) (given : List Value) : Outcome Value :=
  match given with
  | [key] => itemOf v key
  | _ => Given.missing

def rows (f : Nat → Option Value → Value → Outcome Value) (v : Value) (given : List Value) :
    Outcome Value :=
  match given with
  | count :: r => do f (← toCount count) (optional? r[0]?) v
  | [] => Given.missing

def indent (v : Value) (given : List Value) : Outcome Value :=
  match given with
  | width :: r => do
    let width ← toCount width
    let first ← flagOr false r[0]?
    let blank ← flagOr false r[1]?
    .ok (plain (String.ofList (indented width first blank v.display.toList)))
  | [] => Given.missing

def toJson : Filter := fun v g => do
  g.onlyNamed ["indent"]
  Given.between 0 1 g.plain
  scriptValue (optional? (g.plain[0]?.or (g.named? "indent"))) v

def group : Filter := fun v g => do
  Given.between 0 1 g.plain
  groupby (optional? g.plain[0]?) g v

/-- Keeps the values that a test answers as wanted; without a test, those that hold. -/
def sift (wanted : Bool) (path : Option String) (v : Value) (given : List Value) :
    Outcome Value := do
  let test : Value → Outcome Bool ← match optionalText given[0]? with
    | none => pure fun v => .ok v.isTrue
    | some name => match Test.ofName? names name with
      | some test => pure fun v => test v (given.drop 1)
      | none => refuse .unknownTest ("test " ++ name ++ " is unknown")
  let items ← toItems v
  let kept ← items.filterM fun item => do
    let part ← match path with
      | some p => pathOf item p
      | none => pure item
    return (← test part) == wanted
  .ok (.list kept)

def siftOn (wanted : Bool) (v : Value) (given : List Value) : Outcome Value :=
  match given with
  | path :: r => sift wanted (some path.display) v r
  | [] => Given.missing

/-- The parts under one path of all values. -/
def parts (key : Value) (g : Given) (v : Value) : Outcome Value := do
  if !g.plain.isEmpty then Given.tooMany
  let items ← toItems v
  let found ← items.mapM fun item =>
    let part := match key.str? with
      | some path => pathOf item path
      | none => itemOf item key
    match part, g.named? "default" with
    | .ok .undefined, some otherwise => .ok otherwise
    | .error _, some otherwise => .ok otherwise
    | part, _ => part
  g.onlyNamed ["attribute", "default"]
  .ok (.list found)

/-- What each value becomes by a part or by another filter. -/
def mapWith (ofName? : String → Option Filter) : Filter := fun v g =>
  match g.named? "attribute", g.plain with
  | some key, _ => parts key g v
  | none, [] => refuse .badOperation "filter name is required"
  | none, name :: r => do
    let name ← toText name
    match ofName? name with
    | some filter => do
      let items ← toItems v
      .ok (.list (← items.mapM fun item => filter item ⟨r, []⟩))
    | none => refuse .unknownFilter ("filter " ++ name ++ " is unknown")

def ofName? (mode : Escaping) : Nat → String → Option Filter
  | 0, _ => none
  | n + 1, name =>
    match name with
    | "safe" => some (alone fun v => .ok (.text v.display true))
    | "escape" | "e" => some (alone (escape mode))
    | "lower" => some (onText Text.lower)
    | "upper" => some (onText Text.upper)
    | "title" => some (onText (titled true))
    | "capitalize" => some (onText capitalized)
    | "replace" => some (beside 2 2 replaceIn)
    | "length" | "count" => some (alone length)
    | "dictsort" => some (besideNamed dictsort)
    | "items" => some (alone pairs)
    | "reverse" => some (alone reverse)
    | "trim" => some (beside 0 1 fun v given =>
        .ok (plain (String.ofList (trimmed (optionalText given[0]?) v.display.toList))))
    | "join" => some (beside 0 1 fun v given => join (optional? given[0]?) v)
    | "split" => some (beside 0 2 split)
    | "lines" => some (alone fun v => .ok (ofPieces (linesOf v.display.toList)))
    | "default" | "d" => some default
    | "round" => some (beside 0 1 roundTo)
    | "abs" => some (alone abs)
    | "int" => some (alone int)
    | "float" => some (alone float)
    | "attr" => some (beside 1 1 part)
    | "first" => some (alone first)
    | "last" => some (alone last)
    | "min" => some (alone fun v => do .ok (least (← toItems v)))
    | "max" => some (alone fun v => do .ok (greatest (← toItems v)))
    | "sort" => some (besideNamed sort)
    | "list" => some (alone fun v => do .ok (.list (← toItems v)))
    | "string" => some (alone fun v => .ok (if v.str?.isSome then v else plain v.display))
    | "bool" => some (alone fun v => .ok (.bool v.isTrue))
    | "batch" => some (beside 1 2 (rows batch))
    | "slice" => some (beside 1 2 (rows columns))
    | "sum" => some (alone fun v => do sumFrom (.whole 0) (← toItems v))
    | "indent" => some (beside 1 3 indent)
    | "select" => some fun v g => sift true none v g.values
    | "reject" => some fun v g => sift false none v g.values
    | "selectattr" => some fun v g => siftOn true v g.values
    | "rejectattr" => some fun v g => siftOn false v g.values
    | "map" => some (mapWith (ofName? mode n))
    | "groupby" => some group
    | "unique" => some (besideNamed (unique fun s => String.ofList (Text.lower s.toList)))
    | "chain" => some fun v g => chain (v :: g.values)
    | "zip" => some fun v g => zip (v :: g.values)
    | "pprint" => some (alone fun v => .ok (plain (v.laidOut 0)))
    | "tojson" => some toJson
    | "urlencode" => some (alone fun v => .ok (plain (address v)))
    | _ => none

end Filter

end SiteTree.Template
