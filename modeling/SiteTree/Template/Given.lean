import SiteTree.Template.Operator

/-!
The arguments that filters, tests and functions are given, and what they may be.
-/

namespace SiteTree.Template

open Number Value

structure Given where
  plain : List Value
  named : List (String × Value)
  deriving Inhabited

namespace Given

def none : Given := ⟨[], []⟩

/-- Named arguments as one value, for who does not ask for them by name. -/
def namedValue (g : Given) : Value := .map (Value.ofPairs (g.named.map fun p => (.plain p.1, p.2)))

def values (g : Given) : List Value :=
  if g.named.isEmpty then g.plain else g.plain ++ [g.namedValue]

def tooMany {α : Type} : Outcome α := refuse .tooManyArguments "received unexpected extra arguments"

def missing {α : Type} : Outcome α := refuse .missingArgument "missing argument"

/-- So many arguments at least and at most. -/
def between (least most : Nat) (values : List Value) : Outcome Unit :=
  if values.length < least then missing
  else if most < values.length then tooMany
  else .ok ()

def named? (g : Given) (name : String) : Option Value :=
  (g.named.lookup name).filter fun v => match v with
    | .undefined | .nothing => false
    | _ => true

/-- Named arguments are only these. -/
def onlyNamed (g : Given) (names : List String) : Outcome Unit :=
  match g.named.find? fun p => !names.contains p.1 with
  | some p => refuse .tooManyArguments ("unknown keyword argument '" ++ p.1 ++ "'")
  | Option.none => .ok ()

end Given

/-- An argument that may be left out. -/
def optional? : Option Value → Option Value
  | some .undefined => none
  | some .nothing => none
  | v => v

def toCount (v : Value) : Outcome Nat :=
  match v.whole? with
  | some n =>
    if 0 ≤ n && n < twoTo 64 then .ok n.toNat
    else refuse .badOperation ("cannot convert " ++ v.kind ++ " to usize")
  | none => refuse .badOperation ("cannot convert " ++ v.kind ++ " to usize")

def toWhole (v : Value) : Outcome Int :=
  match v.whole? with
  | some n => .ok n
  | none => refuse .badOperation ("cannot convert " ++ v.kind ++ " to i64")

def toFlag : Value → Outcome Bool
  | .bool b => .ok b
  | v => refuse .badOperation ("cannot convert " ++ v.kind ++ " to bool")

/-- A flag that is off unless it is given. -/
def flagOr (otherwise : Bool) (v : Option Value) : Outcome Bool :=
  match optional? v with
  | none => .ok otherwise
  | some v => toFlag v

def toText (v : Value) : Outcome String :=
  match v.str? with
  | some s => .ok s
  | none => refuse .badOperation "value is not a string"

def toItems (v : Value) : Outcome (List Value) :=
  match v.items? with
  | some items => .ok items
  | none => refuse .badOperation (v.kind ++ " is not iterable")

def fieldOf (owner : Value) (name : String) : Outcome Value :=
  match owner with
  | .undefined => refuse .undefinedValue "undefined value"
  | v => .ok ((v.field? name).getD .undefined)

def itemOf (owner key : Value) : Outcome Value :=
  match owner with
  | .undefined => refuse .undefinedValue "undefined value"
  | v => .ok ((v.item? key).getD .undefined)

def pathOf (v : Value) (path : String) : Outcome Value :=
  (Text.splitString '.' path).foldlM (fun v part =>
    match Number.digits? 10 part.toList with
    | some n => itemOf v (.whole n)
    | none => fieldOf v part) v

/-- What cannot be found has a value by default. -/
def pathOr (otherwise : Value) (path : String) (v : Value) : Value :=
  match pathOf v path with
  | .ok .undefined => otherwise
  | .ok v => v
  | .error _ => otherwise

def loosened (v : Value) : Value :=
  match v with
  | .text s safe => .text (s.map Char.toLower) safe
  | v => v

def sorting (exact : Bool) (a b : Value) : Ordering :=
  if exact then Value.order a b else Value.order (loosened a) (loosened b)

def sortBy (key : Value → Value) (exact : Bool) (items : List Value) : List Value :=
  items.mergeSort fun a b => sorting exact (key a) (key b) != .gt

end SiteTree.Template
