import SiteTree.Settings.Merge

/-!
The command line: one build, told on the standard output, with its log on the standard error.
-/

namespace SiteTree.CommandLine

/-- What a run leaves behind for the user. -/
structure Report where
  exit : Nat
  stdout : String
  stderr : String
  deriving DecidableEq, Repr

def helpText : String :=
  "statictron: render a templated directory into a static site

Usage: statictron [OPTIONS] [SOURCE]

Arguments:
  [SOURCE]  Source directory to render

Options:
  -o, --output <DIR>       Directory to save the generated files to
  -i, --ignore <PATTERN>   Glob pattern of source paths to skip (repeatable)
  -s, --scope <KEY=VALUE>  Scope variable passed to filenames and templates (repeatable)
  -t, --transform <NAME>   Built-in transform to run, in chain order (repeatable). ejs: render *.ejs pages; css: bundle index.css and drop other stylesheets [alias: --loader]
      --no-clean           Keep existing files in the output directory
      --hash               Rename assets by content hash and rewrite references to them
  -c, --config <FILE>      Build configuration file (defaults to statictron.json/.yml/.yaml in the current directory)
  -v, --verbose            Enable verbose logging output
  -h, --help               Print help
  -V, --version            Print version
"

def versionText : String := "statictron 0.5.0\n"

def refusalText : Arguments.Refusal → String
  | .unknown => "error: unexpected argument found"
  | .badValue => "error: a value is required for an argument but none was supplied"
  | .badPair text => "error: invalid value '" ++ text ++ "' for '--scope <KEY=VALUE>': " ++
    Arguments.pairMessage text
  | .repeated => "error: an argument cannot be used multiple times"
  | .needlessValue => "error: unexpected value for an argument that takes none"
  | .help => helpText
  | .version => versionText

def refuse (r : Arguments.Refusal) : Report :=
  match r with
  | .help => ⟨0, helpText, ""⟩
  | .version => ⟨0, versionText, ""⟩
  | r => ⟨2, "", refusalText r ++ "\n\nFor more information, try '--help'.\n"⟩

def optionsFrom (args : Arguments) : Action Options := do
  let settings ← Settings.locate args
  Action.ofExcept (settings.toOptions args)

def buildFrom (args : Arguments) : Action Build.Report := do
  let options ← optionsFrom args
  Build.build options

def roots (options : Options) (w : World) : List Path :=
  match Build.outputLocation w.files w.cwd options.outputRoot with
  | .ok output => [options.sourceRoot, output, Build.stagingPath output]
  | .error _ => [options.sourceRoot]

/-- The paths that a run looks at, as far as a world shows them: the working directory, the file
of settings, the roots of the build, and a file for want of which the build fails. -/
def wanted (args : List String) (world : World) : List Path :=
  match Arguments.ofList args with
  | .error _ => []
  | .ok a =>
    let known := match (optionsFrom a).run world with
      | .ok options w => roots options w
      | .error _ _ => []
    let missed := match (buildFrom a).run world with
      | .error (.read path .missing) _ => [path]
      | _ => []
    ⟨"."⟩ :: a.config.toList ++ known ++ missed

def lines (l : List String) : String := String.join (l.map (· ++ "\n"))

def progressLine? : Event → Option String
  | .progress phase text => some (phase.text ++ " " ++ text)
  | .record _ _ _ => none

def summary (r : Build.Report) : List String :=
  (if r.hashed.isEmpty then [] else ["hashed " ++ toString r.hashed.length ++ " assets"]) ++
    ["Build completed successfully in " ++ r.outputRoot.text ++ "."]

/-- One run in a world: what it tells, and the world that it leaves. -/
def run (args : List String) (world : World) : Report × World :=
  match Arguments.ofList args with
  | .error r => (refuse r, world)
  | .ok a =>
    let told (w : World) : List String × List String :=
      let events := w.events.reverse
      (events.filterMap progressLine?, events.filterMap (Event.logLine? a.verbose))
    match (buildFrom a).run { world with events := [] } with
    | .ok r w => (⟨0, lines ((told w).1 ++ summary r), lines (told w).2⟩, w)
    | .error e w => (⟨1, lines (told w).1, lines ((told w).2 ++ [e.message])⟩, w)

end SiteTree.CommandLine
