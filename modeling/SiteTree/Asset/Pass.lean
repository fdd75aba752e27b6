import SiteTree.Asset.Digest
import SiteTree.Asset.Name
import SiteTree.Asset.Reference
import SiteTree.Ignore
import SiteTree.World

/-!
The two passes over a finished tree: the first gives every asset a name that carries the hash of
its content, the second points the references in all texts at the new names.
-/

namespace SiteTree.Asset

/-- The path of a file below the root, with slashes only. -/
def relativeName (root path : Path) : String := Ignore.slashed (path.relativeTo root)

def stampFile (root : Path) (entry : Entry) : Action (Option (String × String)) := do
  let bytes ← Action.readBytes entry.path
  match stamp? entry.name (fingerprint bytes) with
  | none =>
    Action.debug .assets (entry.path.text ++ " is already hashed")
    return none
  | some name =>
    let target := entry.path.withFileName name
    Action.change (fun fs cwd => fs.rename cwd entry.path target) (.write target)
    Action.debug .assets ("Renamed " ++ entry.path.text ++ " to " ++ name)
    return some (relativeName root entry.path, relativeName root target)

/-- Directories come before the files beside them. -/
def stampBelow (root : Path) : Nat → Path → Action (List (String × String))
  | 0, dir => throw (.read dir .tooDeep)
  | n + 1, dir => do
    let entries ← entriesOf dir
    let below ← (entries.filter (·.isDirectory)).mapM fun e => stampBelow root n e.path
    let files := entries.filter fun e => !e.isDirectory && !isPage e.path
    let renamed ← files.mapM (stampFile root)
    return below.flatten ++ renamed.filterMap id

def stampTree (root : Path) : Action Renames := do
  let w ← get
  let renames ← stampBelow root w.files.maxDepth root
  return Table.ofPairs renames

/-- Everything below a directory that is not itself a directory; links are not followed. -/
def filesBelow (fs : FileSystem) (loc : Location) (path : Path) : Nat → List Path
  | 0 => []
  | n + 1 => (fs.children loc).flatMap fun name =>
    let below := loc ++ [name]
    match fs.at? below with
    | some .directory => filesBelow fs below (path.child name) n
    | _ => [path.child name]

def blameVisit (path : Path) (cause : Cause) : Failure :=
  .system (.described ("IO error for operation on " ++ path.text ++ ": " ++ cause.text))

/-- The files to look at for references. A link as root counts as a file, but must lead somewhere. -/
def textCandidates (root : Path) : Action (List Path) := do
  let place ← Action.look (fun fs cwd => fs.resolve cwd false root) (blameVisit root)
  let w ← get
  match place with
  | .vacant _ _ _ => throw (blameVisit root .missing)
  | .found _ (.file _) => return [root]
  | .found loc .directory => return filesBelow w.files loc root w.files.maxDepth
  | .found _ (.link _) =>
    let _ ← Action.look (fun fs cwd => fs.found cwd root) (blameVisit root)
    return [root]

/-- Only texts are rewritten, and only if they hold a known reference. -/
def redirectFile (renames : Renames) (path : Path) : Action Unit := do
  let bytes ← Action.readBytes path
  match (String.fromUTF8? bytes).bind fun content => redirect? content renames with
  | none => return
  | some content =>
    Action.debug .assets ("Rewriting references in " ++ path.text)
    Action.writeBytes path content.toUTF8

def redirectTree (root : Path) (renames : Renames) : Action Unit := do
  if renames.isEmpty then return
  let paths ← textCandidates root
  paths.forM (redirectFile renames)

def runPasses (root : Path) : Action Renames := do
  let renames ← stampTree root
  redirectTree root renames
  return renames

end SiteTree.Asset
