import SiteTree.Failure
import SiteTree.Scope
import SiteTree.Text.Blank
import SiteTree.Text.Word

/-!
Names of entries in a source tree. A name that is a loop stands for one visit per item of a
list; a name with tokens has each token replaced by a value of the scope; any other name stands
for itself.
-/

namespace SiteTree.EntryName

open Text

inductive Form where
  | loop
  | tokens
  | literal
  deriving DecidableEq, Repr

/-- One way to visit an entry. A loop keeps the written name, which is not part of any target. -/
structure Expansion where
  form : Form
  name : String
  scope : Scope

structure Loop where
  binding : String
  path : String
  deriving DecidableEq, Repr

def startsBinding (c : Char) : Bool := c.isAlpha || c = '_' || c = '$'

def inBinding (c : Char) : Bool := isWord c || c = '$'

def inPath (c : Char) : Bool := isWord c || c = '$' || c = '.' || c = '-'

def skipBlanks? : List Char → Option (List Char)
  | [] => none
  | c :: r => if isBlank c then some (trimStart r) else none

def readBinding? (s : List Char) : Option (List Char × List Char) :=
  match s with
  | [] => none
  | c :: r =>
    if startsBinding c then some (c :: r.takeWhile inBinding, r.dropWhile inBinding) else none

/-- Reads a loop at the start of the text, and what follows it. -/
def readLoop? (s : List Char) : Option (Loop × List Char) := do
  let r ← dropStart? ['['] s
  let (binding, r) ← readBinding? (trimStart r)
  let r ← skipBlanks? r
  let r ← dropStart? ['o', 'f'] r
  let r ← skipBlanks? r
  let path := r.takeWhile inPath
  if path.isEmpty then none
  else do
    let r ← dropStart? [']'] (trimStart (r.dropWhile inPath))
    some (⟨String.ofList binding, String.ofList path⟩, r)

def loop? (name : String) : Option Loop :=
  match readLoop? name.toList with
  | some (l, []) => some l
  | _ => none

def holdsLoop : List Char → Bool
  | [] => false
  | c :: r => (readLoop? (c :: r)).isSome || holdsLoop r

/-- A name is cut into tokens, which are bracketed, and the characters between them. -/
inductive Piece where
  | char (c : Char)
  | token (body : List Char)
  deriving DecidableEq, Repr

def Piece.chars : Piece → List Char
  | .char c => [c]
  | .token body => '[' :: body ++ [']']

def inToken (c : Char) : Bool := c ≠ '[' && c ≠ ']'

def tokenBody? (s : List Char) : Option (List Char × List Char) :=
  match s.takeWhile inToken, s.dropWhile inToken with
  | c :: body, ']' :: r => some (c :: body, r)
  | _, _ => none

theorem tokenBody?_eq_some {s body r : List Char} (h : tokenBody? s = some (body, r)) :
    s = body ++ ']' :: r ∧ body ≠ [] ∧ body.all inToken = true := by
  unfold tokenBody? at h
  split at h
  next c b t hb ht =>
    obtain ⟨rfl, rfl⟩ : c :: b = body ∧ t = r := by simpa using h
    refine ⟨?_, by simp, ?_⟩
    · rw [← hb, ← ht, List.takeWhile_append_dropWhile]
    · rw [← hb]
      simp [List.all_takeWhile]
  next => cases h

theorem tokenBody?_length {s body r : List Char} (h : tokenBody? s = some (body, r)) :
    r.length < s.length := by
  rw [(tokenBody?_eq_some h).1]
  simp
  omega

def pieces : List Char → List Piece
  | [] => []
  | c :: r =>
    if c = '[' then
      match _h : tokenBody? r with
      | some (body, rest) => .token body :: pieces rest
      | none => .char c :: pieces r
    else .char c :: pieces r
termination_by s => s.length
decreasing_by
  · have := tokenBody?_length ‹_›
    simp
    omega
  · simp
  · simp

def Piece.isToken : Piece → Bool
  | .char _ => false
  | .token _ => true

def form (name : String) : Form :=
  if (loop? name).isSome then .loop
  else if (pieces name.toList).any Piece.isToken then .tokens
  else .literal

/-- The value that replaces a token; the failure is the path that has none. -/
def tokenValue (scope : Scope) (body : List Char) : Except String (List Char) :=
  let path := String.ofList (trim body)
  match (scope.lookup? path).bind Json.scalarText? with
  | some value => .ok value.toList
  | none => .error path

def fillPieces (scope : Scope) : List Piece → Except String (List Char)
  | [] => .ok []
  | .char c :: r => do
    let rest ← fillPieces scope r
    .ok (c :: rest)
  | .token body :: r => do
    let value ← tokenValue scope body
    let rest ← fillPieces scope r
    .ok (value ++ rest)

/-- Replaces all tokens at once, so that brackets in a value are never read as tokens. -/
def fill (name : String) (scope : Scope) : Except Failure String :=
  match fillPieces scope (pieces name.toList) with
  | .ok s => .ok (String.ofList s)
  | .error path => .error (.unresolved name path)

def runLoop (name : String) (loop : Loop) (scope : Scope) : Except Failure (List Expansion) :=
  match scope.lookup? loop.path with
  | none => .ok []
  | some value =>
    if !value.isTruthy then .ok []
    else match value with
      | .list items => .ok (items.map fun item => ⟨.loop, name, scope.extend loop.binding item⟩)
      | _ => .error (.loop name (.notList loop.path))

def expand (name : String) (scope : Scope) : Except Failure (List Expansion) :=
  match loop? name with
  | some loop => runLoop name loop scope
  | none =>
    if holdsLoop name.toList then .error (.loop name .partOfName)
    else match form name with
      | .tokens => do
        let filled ← fill name scope
        .ok [⟨.tokens, filled, scope⟩]
      | form => .ok [⟨form, name, scope⟩]

end SiteTree.EntryName
