import SiteTree.Failure.Cause
import SiteTree.Glob.Fault
import SiteTree.Json.Printer
import SiteTree.Path
import SiteTree.Template.Fault

/-!
Everything that can end a build, and how it is told to the user.
-/

namespace SiteTree

inductive Misfit where
  | scope (value : Json)
  | sourceNotDirectory (path : Path)
  | outputHoldsSource (path : Path)
  | noSource
  | noOutput
  | format (reason : String)
  | described (text : String)

def Misfit.text : Misfit → String
  | .scope value => "scope must be an object, got " ++ value.print
  | .sourceNotDirectory path => "source '" ++ path.text ++ "' is not a directory"
  | .outputHoldsSource path => "output '" ++ path.text ++ "' must not contain the source directory"
  | .noSource => "no source directory given"
  | .noOutput => "no output directory given (--output)"
  | .format reason => "Invalid configuration format: " ++ reason
  | .described text => text

inductive PatternFault where
  | glob (pattern : String) (fault : Glob.Fault)
  | described (text : String)
  deriving DecidableEq, Repr

def PatternFault.text : PatternFault → String
  | .glob pattern fault =>
    "invalid pattern '" ++ pattern ++ "': error parsing glob '" ++ pattern ++ "': " ++ fault.text
  | .described text => text

inductive LoopFault where
  | partOfName
  | notList (path : String)
  | onFile
  | described (text : String)
  deriving DecidableEq, Repr

def LoopFault.text : LoopFault → String
  | .partOfName => "a loop directive must be the whole name"
  | .notList path => "'" ++ path ++ "' is not a list"
  | .onFile => "loop directives only apply to directories"
  | .described text => text

inductive Failure where
  | read (path : Path) (cause : Cause)
  | write (path : Path) (cause : Cause)
  | system (cause : Cause)
  | settings (misfit : Misfit)
  | unknownLink (name : String)
  | pattern (fault : PatternFault)
  | unresolved (entry name : String)
  | loop (entry : String) (fault : LoopFault)
  | page (fault : PageFault)
  | link (name : String) (path : Path) (text : String)
  | endless (path : Path)

namespace Failure

def message : Failure → String
  | .read path cause => "Cannot read '" ++ path.text ++ "': " ++ cause.text ++ "."
  | .write path cause => "Cannot write '" ++ path.text ++ "': " ++ cause.text ++ "."
  | .system cause => "IO error: " ++ cause.text ++ "."
  | .settings misfit => "Configuration error: " ++ misfit.text ++ "."
  | .unknownLink name => "Configuration error: could not find transform named '" ++ name ++ "'."
  | .pattern fault => "Ignore pattern error: " ++ fault.text ++ "."
  | .unresolved entry name =>
    "Cannot expand '" ++ entry ++ "': '" ++ name ++ "' is not a string or number in scope."
  | .loop entry fault => "Cannot expand loop '" ++ entry ++ "': " ++ fault.text ++ "."
  | .page fault => "Template error: " ++ fault.detail
  | .link name path text => "Transform '" ++ name ++ "' failed on '" ++ path.text ++ "': " ++ text ++ "."
  | .endless path => "The chain does not end on '" ++ path.text ++ "'."

end Failure

end SiteTree
