import SiteTree.Event
import SiteTree.Failure
import SiteTree.FileSystem.Change

/-!
The world that a build acts in, and its actions. What an action changed before it failed stays
changed.
-/

namespace SiteTree

/-- The files, the working directory, and what was told so far, latest first. -/
structure World where
  files : FileSystem
  cwd : Location
  events : List Event

abbrev Action := EStateM Failure World

namespace Action

def tell (event : Event) : Action Unit := modify fun w => { w with events := event :: w.events }

def debug (topic : Topic) (text : String) : Action Unit := tell (.record .debug topic text)

def look {α : Type} (f : FileSystem → Location → Except Cause α) (blame : Cause → Failure) :
    Action α := do
  let w ← get
  match f w.files w.cwd with
  | .ok a => pure a
  | .error cause => throw (blame cause)

def check (f : FileSystem → Location → Bool) : Action Bool := do
  let w ← get
  return f w.files w.cwd

def change (f : FileSystem → Location → Except Cause FileSystem) (blame : Cause → Failure) :
    Action Unit := do
  let w ← get
  match f w.files w.cwd with
  | .ok files => set { w with files := files }
  | .error cause => throw (blame cause)

/-- A change that may have been made in part when it fails. -/
def changePart (f : FileSystem → Location → Except (Cause × FileSystem) FileSystem)
    (blame : Cause → Failure) : Action Unit := do
  let w ← get
  match f w.files w.cwd with
  | .ok files => set { w with files := files }
  | .error (cause, files) =>
    set { w with files := files }
    throw (blame cause)

def ofExcept {α : Type} : Except Failure α → Action α
  | .ok a => pure a
  | .error e => throw e

def makeDirectories (path : Path) : Action Unit :=
  changePart (fun fs cwd => fs.makeDirectories cwd path) (.write path)

def makeParent (path : Path) : Action Unit :=
  match path.parent? with
  | some parent => makeDirectories parent
  | none => pure ()

def writeBytes (path : Path) (bytes : ByteArray) : Action Unit :=
  change (fun fs cwd => fs.write cwd path bytes) (.write path)

/-- Writes a text below directories that are made as needed. -/
def writeText (path : Path) (text : String) : Action Unit := do
  makeParent path
  writeBytes path text.toUTF8

/-- Copies a file byte for byte, below directories that are made as needed. -/
def copy (source target : Path) : Action Unit := do
  makeParent target
  debug .walk ("Copying file: " ++ target.text)
  change (fun fs cwd => fs.copy cwd source target) (.write target)

def readBytes (path : Path) : Action ByteArray := look (fun fs cwd => fs.readFile cwd path) (.read path)

def readText (path : Path) : Action String := look (fun fs cwd => fs.readText cwd path) (.read path)

def clear (path : Path) : Action Unit := do
  let w ← get
  match w.files.removeDirectory w.cwd path with
  | .ok files => set { w with files := files }
  | .error (.missing, files) => set { w with files := files }
  | .error (cause, files) =>
    set { w with files := files }
    throw (.write path cause)

end Action

/-- Directories may not be nested more deeply than this. -/
def maxNesting : Nat := 4096

/-- An entry of a directory, with what it leads to if it is a link. -/
structure Entry where
  name : String
  path : Path
  isDirectory : Bool
  deriving DecidableEq, Repr

def entryOf (dir : Path) (name : String) : Action Entry := do
  let path := dir.child name
  let (_, node) ← Action.look (fun fs cwd => fs.found cwd path) (.read path)
  return ⟨name, path, node.isDirectory⟩

def entriesOf (dir : Path) : Action (List Entry) := do
  let names ← Action.look (fun fs cwd => fs.list cwd dir) (.read dir)
  names.mapM (entryOf dir)

end SiteTree
