/-!
Mistakes in templates, and where they were noticed.
-/

namespace SiteTree

/-- What kind of mistake ends the rendering of a page. -/
inductive PageFaultKind where
  | badSyntax
  | badOperation
  | undefinedValue
  | missingTemplate
  | failedInclude
  | unknownFilter
  | unknownTest
  | unknownFunction
  | unknownMethod
  | unknownBlock
  | failedBlock
  | tooManyArguments
  | missingArgument
  | badEscape
  | badSerialization
  | cannotUnpack
  deriving DecidableEq, Repr

/-- The page and line where the mistake was noticed, as far as they are known. -/
structure PageFault where
  kind : PageFaultKind
  page : Option String
  line : Option Nat
  detail : String
  deriving DecidableEq, Repr

namespace PageFault

def of (kind : PageFaultKind) (detail : String) : PageFault := ⟨kind, none, none, detail⟩

/-- The place that was noticed first stands. -/
def placed (page : String) (line : Nat) (fault : PageFault) : PageFault :=
  if fault.line.isSome then fault else { fault with page := some page, line := some line }

theorem placed_placed (p q : String) (l m : Nat) (fault : PageFault) :
    (fault.placed p l).placed q m = fault.placed p l := by
  cases h : fault.line <;> simp [placed, h]

end PageFault

end SiteTree
