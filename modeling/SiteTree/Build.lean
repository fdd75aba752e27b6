import SiteTree.Asset.Pass
import SiteTree.Walk

/-!
A build: the roots are checked, the tree is rendered, assets are renamed if that is wanted, and
the result is put in the place of the previous output.
-/

namespace SiteTree.Build

structure Report where
  outputRoot : Path
  hashed : Asset.Renames

def sourceFor (source : Path) : Action Path := do
  let resolved ← Action.look (fun fs cwd => fs.canonical cwd source) (.read source)
  if ← Action.check fun fs cwd => fs.isDirectory cwd resolved then return resolved
  else throw (.settings (.sourceNotDirectory source))

/-- The absolute path of the output, through no link if the directory that holds it is there. -/
def outputLocation (fs : FileSystem) (cwd : Location) (output : Path) : Except Cause Path := do
  let path ← FileSystem.absolute cwd output
  match path.parent?, path.fileName? with
  | some parent, some name =>
    match fs.canonical cwd parent with
    | .ok parent => .ok (parent.child name)
    | .error _ => .ok path
  | _, _ => .ok path

/-- An output that is or contains the source is refused. -/
def outputFor (output source : Path) : Action Path := do
  let resolved ← Action.look (fun fs cwd => outputLocation fs cwd output) .system
  if source.startsWith resolved then throw (.settings (.outputHoldsSource output))
  else return resolved

/-- The hidden sibling of the output that a clean build renders into. -/
def stagingPath (output : Path) : Path :=
  output.withFileName ("." ++ output.fileName?.getD "output" ++ ".staging")

/-- The patterns of an ignore file; there are none if there is no file. -/
def ownPatterns (path : Path) : Action (List String) := do
  let w ← get
  match w.files.readText w.cwd path with
  | .ok content => return Ignore.patternsOf content
  | .error .missing =>
    Action.debug .ignore (Ignore.fileName ++ " does not exist")
    return []
  | .error cause => throw (.read path cause)

/-- The defaults, the patterns of the source's own file, and those of the caller. -/
def filterFor (source : Path) (patterns : List String) : Action Ignore := do
  let own ← ownPatterns (source.child Ignore.fileName)
  Action.ofExcept (Ignore.ofPatterns (Ignore.defaults ++ own ++ patterns))

def publish (staging output : Path) : Action Unit := do
  Action.clear output
  Action.change (fun fs cwd => fs.rename cwd staging output) (.write output)

def produce (limits : Walk.Limits) (options : Options) : Action Asset.Renames := do
  Walk.render limits maxNesting options options.sourceRoot options.outputRoot
  if options.hash then Asset.runPasses options.outputRoot else return []

/-- Removes what a failed build left, and only warns if that fails too. -/
def cleanUp (staging : Path) : Action Unit :=
  tryCatch (Action.clear staging) fun e =>
    Action.tell (.record .warn .build ("Could not remove " ++ staging.text ++ ": " ++ e.message))

/-- Renders apart, then publishes. A failure before that leaves the previous output as it was. -/
def buildClean (limits : Walk.Limits) (options : Options) (output staging : Path) :
    Action Asset.Renames := do
  let hashed ← tryCatch (produce limits options) fun e => do
    cleanUp staging
    throw e
  Action.debug .build ("Publishing " ++ staging.text ++ " to " ++ output.text)
  publish staging output
  return hashed

/-- What a build goes by once its options are checked: both roots, resolved, and the filter. -/
structure Plan where
  source : Path
  output : Path
  ignore : Ignore

def validate (options : Options) : Action Plan := do
  let source ← sourceFor options.sourceRoot
  let output ← outputFor options.outputRoot source
  let ignore ← filterFor source options.ignore
  return ⟨source, output, ignore⟩

namespace Plan

def staging (plan : Plan) : Path := stagingPath plan.output

def root (plan : Plan) (clean : Bool) : Path := if clean then plan.staging else plan.output

/-- The build's own directories are never entered. -/
def limits (plan : Plan) (clean : Bool) : Walk.Limits :=
  ⟨plan.ignore, if clean then [plan.output, plan.staging] else [plan.output]⟩

def inner (plan : Plan) (options : Options) : Options :=
  { options with sourceRoot := plan.source, outputRoot := plan.root options.clean }

end Plan

/-- Makes the directory to render into. What an earlier clean build left there goes first. -/
def prepare (plan : Plan) (clean : Bool) : Action Unit := do
  if clean then Action.clear plan.staging
  Action.makeDirectories (plan.root clean)
  Action.tell (.record .info .build
    ("Building " ++ plan.source.text ++ " into " ++ plan.output.text))

def carryOut (plan : Plan) (options : Options) : Action Asset.Renames :=
  let limits := plan.limits options.clean
  if options.clean then buildClean limits (plan.inner options) plan.output plan.staging
  else produce limits (plan.inner options)

def build (options : Options) : Action Report := do
  let plan ← validate options
  prepare plan options.clean
  let hashed ← carryOut plan options
  Action.tell (.record .info .build ("Build completed in " ++ plan.output.text))
  return ⟨plan.output, hashed⟩

end SiteTree.Build
