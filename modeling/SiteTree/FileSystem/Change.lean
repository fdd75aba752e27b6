import SiteTree.FileSystem.Lookup

/-!
Changes to a tree of files through paths, each with the causes for which it is refused.
-/

namespace SiteTree.FileSystem

open Text

/-- What a path ends in. -/
inductive Ending where
  | name
  | here
  | up
  | root
  deriving DecidableEq, Repr

/-- The stretches without an empty one at the end, and how they end. -/
def target (path : Path) : List String × Ending :=
  let names := (steps path.text.toList).filter (· ≠ "")
  (names, match names.getLast? with
    | none => .root
    | some "." => .here
    | some ".." => .up
    | some _ => .name)

def endsInSlash (path : Path) : Bool := path.text.toList.getLast? = some '/'

/-- Where a path leads whose last link is not followed, even if a slash comes after it. -/
def locate (fs : FileSystem) (cwd : Location) (path : Path) : Except Cause Place :=
  if path.isEmpty then .error .missing
  else fs.resolveSteps false (startOf cwd path.text.toList) (target path).1

/-- Writes a file, new or not. A link at the end leads to the file that is written. -/
def write (fs : FileSystem) (cwd : Location) (path : Path) (bytes : ByteArray) :
    Except Cause FileSystem := do
  if endsInSlash path then
    let (names, _) := target path
    match ← fs.resolveSteps true (startOf cwd path.text.toList) (names.dropLast ++ ["."]) with
    | _ => .error .isDirectory
  else
    match ← fs.resolve cwd true path with
    | .found loc (.file _) => .ok (fs.put loc (.file bytes))
    | .found _ _ => .error .isDirectory
    | .vacant parent name _ => .ok (fs.put (parent ++ [name]) (.file bytes))

def makeDirectory (fs : FileSystem) (cwd : Location) (path : Path) : Except Cause FileSystem := do
  match ← fs.locate cwd path with
  | .found _ _ => .error .taken
  | .vacant parent name _ => .ok (fs.put (parent ++ [name]) .directory)

/-- Makes a directory, and for each level that is missing the one above it first. -/
def makeLevels (cwd : Location) : Nat → Path → FileSystem → Except (Cause × FileSystem) FileSystem
  | 0, _, fs => .error (.missing, fs)
  | n + 1, path, fs =>
    if path.isEmpty then .ok fs
    else match fs.makeDirectory cwd path with
      | .ok fs => .ok fs
      | .error .missing => do
        let fs ← match path.parent? with
          | some parent => makeLevels cwd n parent fs
          | none => .error (.described "failed to create whole tree", fs)
        match fs.makeDirectory cwd path with
        | .ok fs => .ok fs
        | .error cause => if fs.isDirectory cwd path then .ok fs else .error (cause, fs)
      | .error cause => if fs.isDirectory cwd path then .ok fs else .error (cause, fs)

/-- Levels that were made stay, even if a later one fails. -/
def makeDirectories (fs : FileSystem) (cwd : Location) (path : Path) :
    Except (Cause × FileSystem) FileSystem :=
  makeLevels cwd (path.components.length + 2) path fs

/-- Removes a directory and all that is below it, or a link itself. -/
def removeDirectory (fs : FileSystem) (cwd : Location) (path : Path) :
    Except (Cause × FileSystem) FileSystem :=
  match fs.resolve cwd false path with
  | .error cause => .error (cause, fs)
  | .ok (.vacant _ _ _) => .error (.missing, fs)
  | .ok (.found _ (.file _)) => .error (.notDirectory, fs)
  | .ok (.found loc (.link _)) => .ok (fs.remove loc)
  | .ok (.found loc .directory) =>
    let emptied := (fs.remove loc).put loc .directory
    match (target path).2 with
    | .root => .error (.busy, fs.remove [])
    | .here => .error (.malformed, emptied)
    | .up => .error (.notEmpty, emptied)
    | .name =>
      match fs.locate cwd path with
      | .ok (.found _ (.link _)) => .error (.notDirectory, emptied)
      | _ => .ok (fs.remove loc)

/-- Gives a file, link or directory a new path. It replaces a file or link that is there if it is
none itself a directory, and an empty directory if it is one. -/
def rename (fs : FileSystem) (cwd : Location) (old new : Path) : Except Cause FileSystem := do
  let source ← fs.locate cwd old
  let dest ← fs.locate cwd new
  if (target old).2 ≠ .name || (target new).2 ≠ .name then throw .busy
  match source with
  | .vacant _ _ _ => throw .missing
  | .found start node =>
    if !node.isDirectory && (endsInSlash old || endsInSlash new) then throw .notDirectory
    match dest with
    | .vacant parent name _ =>
      if start.isPrefixOf parent then throw .malformed
      return fs.move start (parent ++ [name])
    | .found goal there =>
      if goal = start then return fs
      if start.isPrefixOf goal then throw .malformed
      if goal.isPrefixOf start then throw .notEmpty
      match node.isDirectory, there.isDirectory with
      | true, false => throw .notDirectory
      | false, true => throw .isDirectory
      | true, true => if !(fs.children goal).isEmpty then throw .notEmpty
      | false, false => pure ()
      return fs.move start goal

/-- The bytes of a file at another path. The target is emptied before anything is read, so a file
copied onto itself ends up empty. -/
def copy (fs : FileSystem) (cwd : Location) (source dest : Path) : Except Cause FileSystem := do
  match ← fs.found cwd source with
  | (loc, .file _) =>
    let cleared ← fs.write cwd dest .empty
    match cleared.at? loc with
    | some (.file bytes) => cleared.write cwd dest bytes
    | _ => .ok cleared
  | _ => .error .notFile

end SiteTree.FileSystem
