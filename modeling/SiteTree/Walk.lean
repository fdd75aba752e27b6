import SiteTree.Chain
import SiteTree.EntryName
import SiteTree.Ignore
import SiteTree.Page
import SiteTree.Stylesheet

/-!
The walk through a source tree. Every entry that is not skipped or ignored is expanded, and what
it expands to is walked, handed to the chain, or copied.
-/

namespace SiteTree

/-- How a page link treats a file. -/
def Page.offer (options : Options) (source target : Path) : Action Outcome := do
  if !source.hasExtension "ejs" then return .declined
  let content ← render source options
  let page := placeOf target
  Action.writeText page content
  return .produced [page]

/-- How a stylesheet link treats a file. Stylesheets that are only imported are dropped. -/
def Stylesheet.offer (source target : Path) : Action Outcome := do
  if !source.hasExtension "css" then return .declined
  if source.fileName? ≠ some entryName then return .finished
  let content ← bundle source
  Action.writeText target content
  return .produced [target]

def LinkKind.link (options : Options) : LinkKind → Link World Failure
  | .page => ⟨LinkKind.page.name, Page.offer options⟩
  | .stylesheet => ⟨LinkKind.stylesheet.name, Stylesheet.offer⟩

namespace Walk

/-- Files that one run of a chain of built-in links may take up. -/
def chainLimit : Nat := 64

def announce (options : Options) (name : String) (p : Waiting) : Action Unit :=
  Action.progress .rendering (name ++ ": " ++ options.label p.source p.target)

/-- Runs a file through the chain of the options; the answer is whether a link took it. -/
def runChain (options : Options) (source target : Path) : Action Bool := do
  match ← Chain.run (options.links.map (·.link options)) (announce options) chainLimit source target with
  | some applied => return applied
  | none => throw (.endless source)

/-- What is left out of a walk: ignored entries, and paths that are never entered. -/
structure Limits where
  ignore : Ignore
  skip : List Path

/-- A file that no link takes is copied, unless there is something at its target. -/
def emit (options : Options) (source target : Path) : Action Unit := do
  if ← runChain options source target then return
  if ← Action.check fun fs cwd => fs.pathExists cwd target then
    Action.debug .walk ("Keeping existing " ++ target.text)
  else
    Action.copy source target

/-- One expansion of an entry. A loop puts what is in its directory in its own place. -/
def enter (descend : Options → Path → Path → Action Unit) (options : Options) (dest : Path)
    (entry : Entry) (e : EntryName.Expansion) : Action Unit :=
  let inner := { options with scope := e.scope }
  match entry.isDirectory, e.form with
  | true, .loop => descend inner entry.path dest
  | true, _ => descend inner entry.path (dest.child e.name)
  | false, .loop => throw (.loop entry.name .onFile)
  | false, _ => emit inner entry.path (dest.child e.name)

def tellPruned (name : String) (expansions : List EntryName.Expansion) : Action Unit :=
  match EntryName.loop? name, expansions with
  | some loop, [] =>
    Action.debug .names ("Pruning '" ++ name ++ "': '" ++ loop.path ++ "' is empty or not in scope")
  | _, _ => pure ()

def visit (limits : Limits) (descend : Options → Path → Path → Action Unit) (options : Options)
    (dest : Path) (entry : Entry) : Action Unit := do
  if limits.skip.any (·.alike entry.path) then
    Action.debug .walk ("Skipping " ++ entry.path.text ++ ": build output")
  else
    let relative := entry.path.relativeTo options.sourceRoot
    if limits.ignore.hides relative then
      Action.debug .walk ("Skipping " ++ relative.text ++ ": ignored")
    else
      let expansions ← Action.ofExcept (EntryName.expand entry.name options.scope)
      tellPruned entry.name expansions
      expansions.forM (enter descend options dest entry)

/-- Renders every entry of a directory, in the order of their names. -/
def render (limits : Limits) : Nat → Options → Path → Path → Action Unit
  | 0, _, dir, _ => throw (.read dir .tooDeep)
  | n + 1, options, dir, dest => do
    Action.progress .exploring (options.label dir dest)
    let entries ← entriesOf dir
    entries.forM (visit limits (render limits n) options dest)

end Walk

end SiteTree
