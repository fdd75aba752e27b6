import SiteTree.Json.Printer
import SiteTree.Template.Value.Text

/-!
Values as data that can be put into a script.
-/

namespace SiteTree.Template.Value

def fieldName? : Value → Option String
  | .text s _ => some s
  | .bool b => some (if b then "true" else "false")
  | .whole n => some (toString n)
  | .real f => if f.isFinite then some (Json.numberText f) else none
  | _ => none

mutual

def toJson? : Value → Option Json
  | .undefined | .nothing => some .null
  | .bool b => some (.bool b)
  | .whole n => some (.int n)
  | .real f => some (.real f)
  | .text s _ => some (.text s)
  | .list items => (toJsons? items).map .list
  | .map fields => (toFields? fields).map .object
  | .group key items => do
    let k ← toJson? key
    let js ← toJsons? items
    some (.list [k, .list js])
  | v => some (.text (shown v))

def toJsons? : List Value → Option (List Json)
  | [] => some []
  | v :: r => do
    let j ← toJson? v
    let js ← toJsons? r
    some (j :: js)

def toFields? : List (Value × Value) → Option (List (String × Json))
  | [] => some []
  | (k, v) :: r => do
    let name ← fieldName? k
    let j ← toJson? v
    let fields ← toFields? r
    some ((name, j) :: fields)

end

/-- Characters that mean something to a browser are written as numbered escapes. -/
def scriptSafe (c : Char) : List Char :=
  if c = '<' then "\\u003c".toList
  else if c = '>' then "\\u003e".toList
  else if c = '&' then "\\u0026".toList
  else if c = '\'' then "\\u0027".toList
  else [c]

def scriptText (s : String) : String := String.ofList (s.toList.flatMap scriptSafe)

end SiteTree.Template.Value
