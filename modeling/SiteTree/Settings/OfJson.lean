import SiteTree.Json.Reader
import SiteTree.Settings

/-!
Settings as a JSON document: an object, or a list of all seven in their order.
-/

namespace SiteTree.Settings

def text? : Json → Option String
  | .text s => some s
  | _ => .none

def texts? : Json → Option (List String)
  | .list items => items.mapM text?
  | _ => .none

def path? : Json → Option (Option Path)
  | .null => some .none
  | j => (text? j).map fun s => some ⟨s⟩

def flag? : Json → Option (Option Bool)
  | .null => some .none
  | .bool b => some (some b)
  | _ => .none

def patterns? : Json → Option (List String)
  | .text s => some [s]
  | j => texts? j

def scope? : Json → Option (List (String × Json))
  | .object fields => some (keepLast (fields.map fun p => (p.1, p.2.normal)))
  | _ => .none

def set? (s : Settings) (f : Field) (j : Json) : Option Settings :=
  match f with
  | .source => (path? j).map fun p => { s with source := p }
  | .output => (path? j).map fun p => { s with output := p }
  | .ignore => (patterns? j).map fun l => { s with ignore := l }
  | .scope => (scope? j).map fun l => { s with scope := l }
  | .links => (texts? j).map fun l => { s with links := l }
  | .clean => (flag? j).map fun b => { s with clean := b }
  | .hash => (flag? j).map fun b => { s with hash := b }

/-- Every field at most once, and no other. -/
def ofFields? : List Field → Settings → List (String × Json) → Option Settings
  | _, s, [] => some s
  | seen, s, (k, j) :: r => do
    let f ← Field.ofName? k
    if seen.contains f then .none
    else
      let s ← s.set? f j
      ofFields? (f :: seen) s r

def ofItems? : List Field → Settings → List Json → Option Settings
  | [], s, [] => some s
  | f :: fs, s, j :: r => do
    let s ← s.set? f j
    ofItems? fs s r
  | _, _, _ => .none

def ofJson? : Json → Option Settings
  | .object fields => ofFields? [] none fields
  | .list items => ofItems? Field.all none items
  | _ => .none

end SiteTree.Settings
