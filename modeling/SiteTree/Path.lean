import SiteTree.Text.Split

/-!
Paths as text. A path keeps the text it was written with; what it means is its list of
components, in which repeated and trailing slashes and inner dots do not show.
-/

namespace SiteTree

structure Path where
  text : String
  deriving DecidableEq, Repr, Inhabited

namespace Path

open Text

inductive Component where
  | root
  | here
  | up
  | name (s : String)
  deriving DecidableEq, Repr

/-- How a path starts: at the root, with an explicit dot, or with neither. -/
inductive Lead where
  | root
  | here
  | bare
  deriving DecidableEq, Repr

def Lead.chars : Lead → List Char
  | .root => ['/']
  | .here => ['.']
  | .bare => []

def Lead.components : Lead → List Component
  | .root => [.root]
  | .here => [.here]
  | .bare => []

/-- The start of a path and the stretches between the slashes after it. -/
structure Parts where
  lead : Lead
  body : List (List Char)
  deriving DecidableEq, Repr

def parts (p : Path) : Parts :=
  match p.text.toList with
  | '/' :: r => ⟨.root, split '/' r⟩
  | ['.'] => ⟨.here, []⟩
  | '.' :: '/' :: r => ⟨.here, [] :: split '/' r⟩
  | s => ⟨.bare, split '/' s⟩

/-- Stretches that name nothing: the empty one and the dot. -/
def isFiller (s : List Char) : Bool := s.isEmpty || s == ['.']

def component (s : List Char) : Component :=
  if s = ['.', '.'] then .up else .name (String.ofList s)

def bodyComponents (body : List (List Char)) : List Component :=
  (body.filter (!isFiller ·)).map component

def components (p : Path) : List Component := p.parts.lead.components ++ bodyComponents p.parts.body

def isAbsolute (p : Path) : Bool := p.text.toList.head? == some '/'

def isEmpty (p : Path) : Bool := p.text.isEmpty

def ofChars (s : List Char) : Path := ⟨String.ofList s⟩

def alike (p q : Path) : Bool := p.components == q.components

/-- An absolute second path replaces the first. -/
def join (p q : Path) : Path :=
  if q.isAbsolute then q
  else match p.text.toList.getLast? with
    | none => q
    | some '/' => ⟨p.text ++ q.text⟩
    | some _ => ⟨p.text ++ "/" ++ q.text⟩

def child (p : Path) (name : String) : Path := p.join ⟨name⟩

def trimBody (body : List (List Char)) : List (List Char) := (body.reverse.dropWhile isFiller).reverse

/-- The stretches up to and including the last one that names something, that one apart. -/
def splitBody? (body : List (List Char)) : Option (List (List Char) × List Char) :=
  match body.reverse.dropWhile isFiller with
  | [] => none
  | s :: r => some (r.reverse, s)

def Parts.chars (x : Parts) : List Char := x.lead.chars ++ glue '/' x.body

def parent? (p : Path) : Option Path :=
  match splitBody? p.parts.body with
  | some (before, _) => some (ofChars (Parts.chars ⟨p.parts.lead, trimBody before⟩))
  | none => match p.parts.lead with
    | .here => some ⟨""⟩
    | _ => none

def fileChars? (p : Path) : Option (List Char) :=
  match splitBody? p.parts.body with
  | some (_, s) => if s = ['.', '.'] then none else some s
  | none => none

def fileName? (p : Path) : Option String := p.fileChars?.map String.ofList

/-- A file name cut at its last dot. A dot in front of everything else does not count. -/
def cutName (name : List Char) : List Char × Option (List Char) :=
  match splitLast? '.' name with
  | none => (name, none)
  | some ([], _) => (name, none)
  | some (stem, ext) => (stem, some ext)

def stemChars? (p : Path) : Option (List Char) := p.fileChars?.map fun n => (cutName n).1

def extensionChars? (p : Path) : Option (List Char) := p.fileChars?.bind fun n => (cutName n).2

def stem? (p : Path) : Option String := p.stemChars?.map String.ofList

def extension? (p : Path) : Option String := p.extensionChars?.map String.ofList

def hasExtension (p : Path) (ext : String) : Bool := p.extension? == some ext

/-- Replaces the last component if it is a name, and otherwise adds one. -/
def withFileName (p : Path) (name : String) : Path :=
  match p.fileChars?, p.parent? with
  | some _, some q => q.child name
  | _, _ => p.child name

/-- Cuts the path after the stem of its file name and adds the extension, if it is not empty. -/
def setExtension (p : Path) (ext : String) : Path :=
  match splitBody? p.parts.body, p.stemChars? with
  | some (before, _), some stem =>
    let cut := Parts.chars ⟨p.parts.lead, before ++ [stem]⟩
    ofChars (if ext.isEmpty then cut else cut ++ '.' :: ext.toList)
  | _, _ => p

/-- The old extension goes first, and a path that then ends in two dots names nothing to extend. -/
def withExtension (p : Path) (ext : String) : Path :=
  match p.extensionChars? with
  | none => p.setExtension ext
  | some old => (ofChars (p.text.toList.take (p.text.length - old.length))).setExtension ext

def startsWith (p base : Path) : Bool := base.components.isPrefixOf p.components

/-- Drops the stretches of the first `n` components and the fillers around them. -/
def dropNames : Nat → List (List Char) → List (List Char)
  | 0, body => body.dropWhile isFiller
  | _ + 1, [] => []
  | n + 1, s :: r => if isFiller s then dropNames (n + 1) r else dropNames n r

def stripBase? (p base : Path) : Option Path :=
  if p.startsWith base then
    let lead := p.parts.lead
    let body := trimBody p.parts.body
    match base.components.length with
    | 0 => some (ofChars (Parts.chars ⟨lead, body⟩))
    | n + 1 =>
      let names := if lead = .bare then n + 1 else n
      some (ofChars (glue '/' (dropNames names body)))
  else none

def relativeTo (p base : Path) : Path := (p.stripBase? base).getD p

end Path

end SiteTree
