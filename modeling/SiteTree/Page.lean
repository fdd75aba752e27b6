import SiteTree.Options
import SiteTree.Template.Render

/-!
Pages: where a rendered template goes, where the templates that it includes are found, and how
its text is cleaned up.
-/

namespace SiteTree.Page

open Template

/-- A page named for the index stays where it is; any other gets a directory of its own. -/
def placeOf (target : Path) : Path :=
  if target.stem? = some "index" then target.withFileName "index.html"
  else (target.withExtension "").join ⟨"index.html"⟩

/-- The content of the first of several files that is there. -/
def firstText (fs : FileSystem) (cwd : Location) : List Path → Template.Outcome (Option String)
  | [] => .ok none
  | path :: r => match fs.readText cwd path with
    | .ok text => .ok (some text)
    | .error .missing => firstText fs cwd r
    | .error cause => refuse .badOperation
        ("could not read include '" ++ path.text ++ "': " ++ cause.text)

/-- A template is looked for in the working directory first and in the source root second. -/
def findInclude (fs : FileSystem) (cwd : Location) (sourceRoot : Path) (name : String) :
    Template.Outcome (Option String) :=
  firstText fs cwd [⟨name⟩, sourceRoot.child name]

def isIndent (c : Char) : Bool := c = ' ' || c = '\t'

/-- What may follow an indent at the start of a text, the longest indent first. -/
def afterIndent : List Char → List (List Char)
  | [] => [[]]
  | c :: r => (if isIndent c then afterIndent r else []) ++ [c :: r]

/-- What follows the line break at the start of a text; at its end nothing is left to follow. -/
def afterBreak? : List Char → Option (List Char)
  | '\r' :: '\n' :: r => some r
  | '\n' :: r => some r
  | [] => some []
  | _ => none

/-- What follows the blank line at the start of a text. -/
def afterBlank? (s : List Char) : Option (List Char) := (afterIndent s).findSome? afterBreak?

/-- Goes through a text of at most so many characters, of which the first starts a line or not.
Where a line starts that is blank it goes, with its line break. -/
def dropBlankFrom : Nat → Bool → List Char → List Char
  | 0, _, _ => []
  | _, _, [] => []
  | n + 1, start, c :: r =>
    match if start then afterBlank? (c :: r) else none with
    | some rest => dropBlankFrom n true rest
    | none => c :: dropBlankFrom n (c = '\n') r

def dropBlankLines (s : String) : String :=
  String.ofList (dropBlankFrom s.toList.length true s.toList)

/-- Reads a template and renders it with the scope of the options. -/
def render (source : Path) (options : Options) : Action String := do
  let content ← Action.readText source
  let w ← get
  let name := (source.relativeTo options.sourceRoot).text
  match Template.render (findInclude w.files w.cwd options.sourceRoot) name content options.scope with
  | .ok text => return dropBlankLines text
  | .error fault => throw (.page fault)

end SiteTree.Page
