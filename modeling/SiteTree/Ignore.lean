import SiteTree.Failure
import SiteTree.Glob.Reader
import SiteTree.Text.Blank

/-!
Ignore filters. A pattern is matched against the whole path relative to the source root, and a
pattern without a slash also against the name of the entry alone.
-/

namespace SiteTree

structure Ignore where
  paths : List Glob
  names : List Glob

namespace Ignore

open Text

def none : Ignore := ⟨[], []⟩

def append (a b : Ignore) : Ignore := ⟨a.paths ++ b.paths, a.names ++ b.names⟩

/-- A pattern without the blanks around it and the slashes at its end. -/
def clean (pattern : String) : List Char := dropEnd (· = '/') (trim pattern.toList)

def ofPattern (pattern : String) : Except Failure Ignore :=
  let s := clean pattern
  if s.isEmpty then .ok none
  else match Glob.read (String.ofList s) with
    | .error fault => .error (.pattern (.glob (String.ofList s) fault))
    | .ok glob => .ok ⟨[glob], if s.contains '/' then [] else [glob]⟩

def ofPatterns : List String → Except Failure Ignore
  | [] => .ok none
  | p :: r => do
    let a ← ofPattern p
    let b ← ofPatterns r
    .ok (a.append b)

def slashed (path : Path) : String :=
  String.ofList (path.text.toList.map fun c => if c = '\\' then '/' else c)

def hides (filter : Ignore) (path : Path) : Bool :=
  filter.paths.any (·.accepts (slashed path)) ||
    match path.fileName? with
    | some name => filter.names.any (·.accepts name)
    | Option.none => false

def fileName : String := ".statictronignore"

/-- What is ignored whatever the settings say. -/
def defaults : List String :=
  [fileName, "statictron.json", "statictron.yml", "statictron.yaml", ".git", ".DS_Store"]

def patternsOf (content : String) : List String :=
  ((split '\n' content.toList).map trim).filterMap fun l =>
    if l.isEmpty || l.head? = some '#' then Option.none else some (String.ofList l)

end Ignore

end SiteTree
