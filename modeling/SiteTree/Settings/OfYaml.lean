import SiteTree.Failure
import SiteTree.Settings.OfJson
import SiteTree.Yaml.Node
import SiteTree.Yaml.Plain

/-!
Settings as a YAML document. Scalars are taken for texts wherever a text is wanted, and what is
wrong with a value is told even if there is a mistake in the document further on.
-/

namespace SiteTree.Settings

open Yaml

/-- What is wrong: a value, told with its place, or the document itself. -/
inductive Trouble where
  | value (text : String)
  | document

/-- Reading follows only so many aliases. -/
abbrev Reading := StateT Nat (Except Trouble)

namespace Reading

def refuse {α : Type} (place text : String) : Reading α :=
  throw (.value (if place.isEmpty then text else place ++ ": " ++ text))

def broken {α : Type} : Reading α := throw .document

def mismatch {α : Type} (place what wanted : String) : Reading α :=
  refuse place ("invalid type: " ++ what ++ ", expected " ++ wanted)

/-- The place of a value under a key, which is only known if the key is a scalar. -/
def below (place : String) (key : Node) : String :=
  let name := match key with
    | .scalar s => s.text
    | _ => "?"
  if place.isEmpty then name else place ++ "." ++ name

def item (place : String) (n : Nat) : String :=
  (if place.isEmpty then "." else place) ++ "[" ++ toString n ++ "]"

/-- The node that is meant, which for an alias is another one. -/
def target (anchors : Nat → Option Node) (node : Node) : Reading Node := do
  match node with
  | .alias id =>
    let left ← get
    if left = 0 then broken
    else
      set (left - 1)
      match anchors id with
      | some node => return node
      | .none => broken
  | node => return node

def boolTag : String := "tag:yaml.org,2002:bool"
def intTag : String := "tag:yaml.org,2002:int"
def floatTag : String := "tag:yaml.org,2002:float"
def nullTag : String := "tag:yaml.org,2002:null"

def isOwnTag (tag : Option String) : Bool := tag.any fun t => t.toList.head? = some '!'

/-- What a scalar means with its tag and style. -/
def meaning (s : Scalar) : Reading Plain :=
  match s.tag with
  | .none => return if s.style = .plain then .ofText s.text else .text s.text
  | some tag =>
    if tag = boolTag then
      match Plain.bool? s.text with
      | some b => return .bool b
      | .none => broken
    else if tag = intTag then
      match Plain.whole? s.text with
      | some p => return p
      | .none => broken
    else if tag = floatTag then
      match Plain.real? s.text with
      | some f => return .real f
      | .none => broken
    else if tag = nullTag then
      if Plain.isNull s.text then return .null else broken
    else if isOwnTag s.tag && s.style = .plain then return .ofText s.text
    else return .text s.text

/-- What a node is called where it is not wanted. -/
def describe (node : Node) : Reading String :=
  match node with
  | .scalar s => return (← meaning s).describe
  | .alias _ => broken
  | .sequence _ _ _ => return "sequence"
  | .mapping _ _ _ => return "map"

def wrongType {α : Type} (place wanted : String) (node : Node) : Reading α := do
  mismatch place (← describe node) wanted

def text (anchors : Nat → Option Node) (place wanted : String) (node : Node) : Reading String := do
  match ← target anchors node with
  | .scalar s => return s.text
  | node => wrongType place wanted node

/-- Goes through the items of a list. A list that is cut ends in a mistake. -/
def items {α : Type} (read : Nat → Node → Reading α) (whole : Bool) : Nat → List Node → Reading (List α)
  | _, [] => if whole then return [] else broken
  | n, a :: r => do
    let x ← read n a
    let xs ← items read whole (n + 1) r
    return x :: xs

/-- Goes through the keys and values of a mapping, each key before its value. -/
def entries {κ α : Type} (readKey : Bool → Node → Reading κ) (read : κ → Node → Node → Reading α)
    (whole : Bool) : Bool → List Node → Reading (List α)
  | _, [] => if whole then return [] else broken
  | first, [key] => do
    let _ ← readKey first key
    broken
  | first, key :: value :: r => do
    let k ← readKey first key
    let x ← read k key value
    let xs ← entries readKey read whole false r
    return x :: xs

/-- A dynamic value. Numbers that are not finite are nothing. -/
def json (anchors : Nat → Option Node) : Nat → String → Node → Reading Json
  | depth, place, node => do
    match ← target anchors node with
    | .scalar s =>
      if isOwnTag s.tag then mismatch place "enum" "any valid JSON value"
      else match ← meaning s with
        | .null => return .null
        | .bool b => return .bool b
        | .whole n => return .int n
        | .huge _ => broken
        | .real f => return if f.isFinite then .real f else .null
        | .text s => return .text s
    | .sequence tag list whole =>
      if isOwnTag tag then mismatch place "enum" "any valid JSON value"
      else match depth with
        | 0 => broken
        | depth + 1 => do
          let l ← items (fun n => json anchors depth (item place n)) whole 0 list
          return .list l
    | .mapping tag list whole =>
      if isOwnTag tag then mismatch place "enum" "any valid JSON value"
      else match depth with
        | 0 => broken
        | depth + 1 => do
          let l ← entries (fun first => text anchors place (if first then "a string key" else "a string"))
            (fun k key value => do
              let v ← json anchors depth (below place key) value
              return (k, v)) whole true list
          return .object (Table.ofPairs l)
    | .alias _ => broken

/-- What a value that is one thing or another turns out to be. -/
inductive Content where
  | text (s : String)
  | list (items : List Content)
  | other

def content (anchors : Nat → Option Node) : Nat → String → Node → Reading Content
  | depth, place, node => do
    match ← target anchors node with
    | .scalar s =>
      if isOwnTag s.tag then broken
      else match ← meaning s with
        | .text s => return .text s
        | .huge n => mismatch place (Plain.huge n).describe "any value"
        | _ => return .other
    | .sequence tag list whole =>
      if isOwnTag tag then broken
      else match depth with
        | 0 => broken
        | depth + 1 => do
          let l ← items (fun n => content anchors depth (item place n)) whole 0 list
          return .list l
    | .mapping tag list whole =>
      if isOwnTag tag then broken
      else match depth with
        | 0 => broken
        | depth + 1 => do
          let _ ← entries (fun _ => content anchors depth place)
            (fun _ key value => content anchors depth (below place key) value) whole true list
          return .other
    | .alias _ => broken

def contentText? : Content → Option String
  | .text s => some s
  | _ => .none

def patterns (anchors : Nat → Option Node) (depth : Nat) (place : String) (node : Node) :
    Reading (List String) := do
  let found ← content anchors depth place node
  let l? := match found with
    | .text s => some [s]
    | .list l => l.mapM contentText?
    | .other => .none
  match l? with
  | some l => return l
  | .none => refuse "" "data did not match any variant of untagged enum IgnorePatterns"

def isPresent (node : Node) : Reading Bool :=
  match node with
  | .scalar s =>
    if s.style ≠ .plain then return true
    else match s.tag with
      | some tag =>
        if tag = nullTag then (if Plain.isNull s.text then return false else broken) else return true
      | .none => return !(s.text.isEmpty || Plain.isNull s.text)
  | _ => return true

def path (anchors : Nat → Option Node) (place : String) (node : Node) : Reading (Option Path) := do
  let node ← target anchors node
  if ← isPresent node then
    let s ← text anchors place "path string" node
    return some ⟨s⟩
  else return .none

def flag (anchors : Nat → Option Node) (place : String) (node : Node) : Reading (Option Bool) := do
  let node ← target anchors node
  if ← isPresent node then
    match node with
    | .scalar s =>
      let direct := s.style = .plain || (s.style = .literal && s.tag = some boolTag)
      match if direct then Plain.bool? s.text else .none with
      | some b => return some b
      | .none => wrongType place "a boolean" node
    | node => wrongType place "a boolean" node
  else return .none

def isBlank (node : Node) : Bool :=
  match node with
  | .scalar s => s.text.isEmpty && s.style = .plain
  | _ => false

def texts (anchors : Nat → Option Node) (place : String) (node : Node) : Reading (List String) := do
  match ← target anchors node with
  | .sequence _ list whole => items (fun n => text anchors (item place n) "a string") whole 0 list
  | node => if isBlank node then return [] else wrongType place "a sequence" node

def scope (anchors : Nat → Option Node) (depth : Nat) (place : String) (node : Node) :
    Reading (List (String × Json)) := do
  match ← target anchors node with
  | .mapping _ list whole =>
    let l ← entries (fun _ => text anchors place "a string")
      (fun k key value => do
        let v ← json anchors depth (below place key) value
        return (k, v)) whole true list
    return keepLast l
  | node => if isBlank node then return [] else wrongType place "a map" node

/-- Nesting is limited to this depth, of which the settings themselves take one. -/
def maxDepth : Nat := 128

def value (anchors : Nat → Option Node) (s : Settings) (f : Field) (place : String) (node : Node) :
    Reading Settings := do
  match f with
  | .source => return { s with source := ← path anchors place node }
  | .output => return { s with output := ← path anchors place node }
  | .ignore => return { s with ignore := ← patterns anchors (maxDepth - 1) place node }
  | .scope => return { s with scope := ← scope anchors (maxDepth - 2) place node }
  | .links => return { s with links := ← texts anchors place node }
  | .clean => return { s with clean := ← flag anchors place node }
  | .hash => return { s with hash := ← flag anchors place node }

def wantedFields : String :=
  "one of " ++ ", ".intercalate (Field.all.map fun f => "\x60" ++ f.name ++ "\x60")

def field (anchors : Nat → Option Node) (seen : List Field) (key : Node) : Reading Field := do
  let name ← text anchors "" "field identifier" key
  match Field.ofName? name with
  | .none => refuse "" ("unknown field \x60" ++ name ++ "\x60, expected " ++ wantedFields)
  | some f => if seen.contains f then refuse "" ("duplicate field \x60" ++ name ++ "\x60") else return f

def fields (anchors : Nat → Option Node) (whole : Bool) : List Field → Settings → List Node →
    Reading Settings
  | _, s, [] => if whole then return s else broken
  | seen, _, [key] => do
    let _ ← field anchors seen key
    broken
  | seen, s, key :: node :: r => do
    let f ← field anchors seen key
    let s ← value anchors s f (below "" key) node
    fields anchors whole (f :: seen) s r

def settings (anchors : Nat → Option Node) (node : Node) : Reading Settings := do
  match ← target anchors node with
  | .mapping _ list whole => fields anchors whole [] none list
  | node => if isBlank node then return none else wrongType "" "struct BuildConfig" node

end Reading

/-- An empty document holds no settings. A value is looked at before what follows it. -/
def ofDocument (d : Document) : Except Trouble Settings :=
  match d.root with
  | .none => if d.blank then .ok none else .error .document
  | some node => do
    let (s, _) ← (Reading.settings d.anchors node).run (100 * d.events)
    if d.sound then .ok s else .error .document

def Trouble.text : Trouble → String
  | .value text => text
  | .document => "(unreadable)"

/-- Settings are JSON, or else YAML. -/
def parse (content : String) : Except Failure Settings :=
  match (Json.read? content).bind ofJson? with
  | some s => .ok s
  | .none => match ofDocument (Document.ofText content) with
    | .ok s => .ok s
    | .error t => .error (.settings (.format t.text))

end SiteTree.Settings
