import SiteTree.Scope
import SiteTree.World

/-!
The options of a build, and how it tells its progress.
-/

namespace SiteTree

inductive LinkKind where
  | page
  | stylesheet
  deriving DecidableEq, Repr

def LinkKind.name : LinkKind → String
  | .page => "ejs"
  | .stylesheet => "css"

def LinkKind.ofName (name : String) : Except Failure LinkKind :=
  if name = LinkKind.page.name then .ok .page
  else if name = LinkKind.stylesheet.name then .ok .stylesheet
  else .error (.unknownLink name)

/-- The first name that no link has is refused. -/
def LinkKind.ofNames : List String → Except Failure (List LinkKind)
  | [] => .ok []
  | n :: r => do
    let k ← ofName n
    let ks ← ofNames r
    .ok (k :: ks)

/-- With `clean` the output is rendered apart and then put in the place of the previous one. -/
structure Options where
  sourceRoot : Path
  outputRoot : Path
  scope : Scope
  ignore : List String
  links : List LinkKind
  clean : Bool
  hash : Bool

namespace Options

def label (options : Options) (source target : Path) : String :=
  "\"" ++ (source.relativeTo options.sourceRoot).text ++ "\" => \"" ++
    (target.relativeTo options.outputRoot).text ++ "\""

end Options

namespace Action

def progress (phase : Phase) (text : String) : Action Unit := do
  debug .progress (phase.text ++ ": " ++ text)
  tell (.progress phase text)

end Action

end SiteTree
