import SiteTree.Arguments
import SiteTree.Build
import SiteTree.Settings.OfYaml

/-!
The options of a build from its settings and arguments. Arguments win over settings, but patterns
of both are used, and a scope keeps what the arguments do not bind.
-/

namespace SiteTree.Settings

def mergedScope (s : Settings) (args : Arguments) : Scope :=
  .ofPairs (s.scope ++ args.scope.map fun p => (p.1, .text p.2))

def toOptions (s : Settings) (args : Arguments) : Except Failure Options :=
  match args.source.or s.source, args.output.or s.output with
  | .none, _ => .error (.settings .noSource)
  | _, .none => .error (.settings .noOutput)
  | some source, some output => do
    let links ← LinkKind.ofNames (if args.links.isEmpty then s.links else args.links)
    return {
      sourceRoot := source
      outputRoot := output
      scope := mergedScope s args
      ignore := s.ignore ++ args.ignore
      links := links
      clean := !args.noClean && s.clean.getD true
      hash := args.hash || s.hash.getD false }

def fileNames : List String := ["statictron.json", "statictron.yml", "statictron.yaml"]

def find (dir : Path) : List String → Action (Option (Path × String))
  | [] => return .none
  | name :: r => do
    let path := dir.join ⟨name⟩
    if ← Action.check fun fs cwd => fs.pathExists cwd path then
      Action.debug .settings ("Loading configuration from " ++ path.text)
      let content ← Action.readText path
      return some (path, content)
    else find dir r

def workingDirectory : Action Path := return FileSystem.pathOf (← get).cwd

/-- The settings in the file that the arguments name, or in one of the working directory. -/
def locate (args : Arguments) : Action Settings := do
  let found ← match args.config with
    | some path => do
      let content ← Action.readText path
      pure (some (path, content))
    | .none => find (← workingDirectory) fileNames
  match found with
  | .none => return none
  | some (path, content) =>
    let s ← Action.ofExcept (parse content)
    return s.relativeTo (path.parent?.getD ⟨""⟩)

end SiteTree.Settings
