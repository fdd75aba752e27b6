import SiteTree.Text.Blank
import SiteTree.World

/-!
Stylesheets. Only the entry of a directory is written, with the local stylesheets that it
imports in the place of the import rules; all other stylesheets exist to be imported.
-/

namespace SiteTree.Stylesheet

open Text

/-- An import rule with the blanks before it and the line end after it, as it was written. -/
structure Rule where
  reference : List Char
  text : List Char
  deriving DecidableEq, Repr

def isIndent (c : Char) : Bool := c = ' ' || c = '\t'

def skipSome? : List Char → Option (List Char)
  | [] => none
  | c :: r => if isBlank c then some (trimStart r) else none

def inBare (c : Char) : Bool := !(c = '"' || c = '\'' || c = ')' || c = ';' || isBlank c)

/-- Characters up to the next quote of the same kind, but not none. -/
def quotedReference? (quote : Char) (s : List Char) : Option (List Char × List Char) :=
  match s.takeWhile (· ≠ quote), s.dropWhile (· ≠ quote) with
  | c :: body, _ :: r => some (c :: body, r)
  | _, _ => none

def reference? (s : List Char) : Option (List Char × List Char) :=
  match s with
  | '"' :: r => quotedReference? '"' r
  | '\'' :: r => quotedReference? '\'' r
  | s =>
    let body := s.takeWhile inBare
    if body.isEmpty then none else some (body, s.dropWhile inBare)

def dropIf (c : Char) : List Char → List Char
  | [] => []
  | d :: r => if c = d then r else d :: r

/-- What follows the semicolon that ends a rule, and the rest of the line if it is blank. -/
def afterEnd? (s : List Char) : Option (List Char) :=
  match (dropIf ')' (trimStart s)).dropWhile fun c => c ≠ ';' && c ≠ '\n' with
  | ';' :: r => some (dropIf '\n' (dropIf '\r' (r.dropWhile isIndent)))
  | _ => none

def referenceAndEnd? (s : List Char) : Option (List Char × List Char) := do
  let (reference, r) ← reference? s
  let rest ← afterEnd? r
  some (reference, rest)

/-- The reference of a rule may be wrapped; what is not well wrapped is read as it stands. -/
def wrapped? (s : List Char) : Option (List Char × List Char) :=
  match dropStart? ['u', 'r', 'l', '('] s with
  | some r => match referenceAndEnd? (trimStart r) with
    | some x => some x
    | none => referenceAndEnd? s
  | none => referenceAndEnd? s

def rule? (s : List Char) : Option (Rule × List Char) := do
  let r ← dropStart? ['@', 'i', 'm', 'p', 'o', 'r', 't'] (s.dropWhile isIndent)
  let r ← skipSome? r
  let (reference, rest) ← wrapped? r
  some (⟨reference, s.take (s.length - rest.length)⟩, rest)

/-- A stylesheet is cut into import rules and the characters between them. -/
inductive Piece where
  | char (c : Char)
  | rule (r : Rule)
  deriving DecidableEq, Repr

/-- Pieces of a text of at most so many characters, of which the first starts a line or not. -/
def piecesFrom : Nat → Bool → List Char → List Piece
  | 0, _, _ => []
  | _, _, [] => []
  | n + 1, start, c :: r =>
    match if start then rule? (c :: r) else none with
    | some (rule, rest) => .rule rule :: piecesFrom n (rule.text.getLast? = some '\n') rest
    | none => .char c :: piecesFrom n (c = '\n') r

def pieces (s : List Char) : List Piece := piecesFrom s.length true s

def isRemote (reference : List Char) : Bool :=
  ['/', '/'].isPrefixOf reference || holds [':', '/', '/'] reference

/-- The files met so far, and the imports that were left out because their file was among them. -/
structure Visit where
  seen : List Path
  repeats : List Path

abbrev Bundling := EStateM Failure Visit

/-- An imported text ends in a newline unless it is empty. -/
def closed (s : List Char) : List Char :=
  if s.isEmpty || s.getLast? = some '\n' then s else s ++ ['\n']

def inlinePieces (inline : Path → Bundling (List Char)) (base : Path) :
    List Piece → Bundling (List Char)
  | [] => pure []
  | .char c :: r => do
    let rest ← inlinePieces inline base r
    pure (c :: rest)
  | .rule rule :: r => do
    let s ← if isRemote rule.reference then pure rule.text
      else do
        let s ← inline (base.join (Path.ofChars rule.reference))
        pure (closed s)
    let rest ← inlinePieces inline base r
    pure (s ++ rest)

def fetch {α : Type} (path : Path) : Except Cause α → Bundling α
  | .ok a => pure a
  | .error cause => throw (.read path cause)

/-- A file with its imports in place. Each file is read once; later imports of it give nothing. -/
def inline (fs : FileSystem) (cwd : Location) : Nat → Path → Bundling (List Char)
  | 0, _ => pure []
  | n + 1, path => do
    let canonical ← fetch path (fs.canonical cwd path)
    let v ← get
    if v.seen.contains canonical then
      set { v with repeats := path :: v.repeats }
      return []
    set { v with seen := canonical :: v.seen }
    let content ← fetch path (fs.readText cwd path)
    inlinePieces (inline fs cwd n) (path.parent?.getD ⟨"."⟩) (pieces content.toList)

/-- There are no more files than entries, so the imports cannot be nested more deeply. -/
def bundleFile (fs : FileSystem) (cwd : Location) (entry : Path) : EStateM.Result Failure Visit String :=
  (do
    let s ← inline fs cwd (fs.entries.length + 2) entry
    pure (String.ofList s) : Bundling String).run ⟨[], []⟩

def tellRepeats (visit : Visit) : Action Unit :=
  visit.repeats.reverse.forM fun path =>
    Action.debug .stylesheet ("Skipping repeated import of " ++ path.text)

def bundle (entry : Path) : Action String := do
  let w ← get
  match bundleFile w.files w.cwd entry with
  | .ok s visit =>
    tellRepeats visit
    return s
  | .error e visit =>
    tellRepeats visit
    throw e

def entryName : String := "index.css"

end SiteTree.Stylesheet
