import SiteTree.CommandLine
import SiteTree.FileSystem.Difference

/-!
The program. It reads the trees that a run looks at into a world, runs there, and carries the
changes out on the disk.
-/

namespace SiteTree.Main

/-- The part of the disk that was read, and the places where reading began. -/
structure Snapshot where
  files : FileSystem
  begun : List Location

abbrev Reading := StateT Snapshot IO

def place (loc : Location) := (IO.FS.DirEntry.mk "" ("/".intercalate loc)).path

def note (loc : Location) (node : FileNode) : Reading Unit :=
  modify fun s => if s.files.at? loc = some node then s else { s with files := s.files.put loc node }

def kind? (loc : Location) : Reading (Option IO.FS.FileType) := do
  try return some (← (place loc).symlinkMetadata).type
  catch _ => return none

/-- Follows names from a directory and reads all that is where they lead. A link is kept with the
absolute path behind it; one that leads nowhere is kept as a link to itself. -/
partial def readFrom (cur : Location) : List String → Reading Unit
  | [] => do
    if (← get).begun.contains cur then return
    modify fun s => { s with begun := cur :: s.begun }
    for entry in ← (place cur).readDir do
      readFrom cur [entry.fileName]
  | name :: rest => do
    if name = "" || name = "." then readFrom cur rest
    else if name = ".." then readFrom cur.dropLast rest
    else
      let loc := cur ++ [name]
      match ← kind? loc with
      | some .dir =>
        note loc .directory
        readFrom loc rest
      | some .file => note loc (.file (← IO.FS.readBinFile (place loc)))
      | some .symlink =>
        let target ← try IO.FS.realPath (place loc) catch _ => pure (place loc)
        note loc (.link target.toString)
        if target ≠ place loc then
          readFrom [] (FileSystem.steps target.toString.toList ++ rest)
      | _ => return

def readPath (cwd : Location) (path : Path) : Reading Unit :=
  readFrom [] (FileSystem.steps ((FileSystem.pathOf cwd).join path).text.toList)

/-- Reads until the run asks for nothing more. -/
partial def gather (args : List String) (cwd : Location) (read : List Path) (s : Snapshot) :
    IO World := do
  let world : World := ⟨s.files, cwd, []⟩
  match (CommandLine.wanted args world).filter fun p => !read.contains p with
  | [] => return world
  | paths =>
    let (_, s) ← (paths.forM (readPath cwd)).run s
    gather args cwd (read ++ paths) s

/-- A run makes no links. -/
def carryOut : Edit → IO Unit
  | .remove loc .directory => IO.FS.removeDir (place loc)
  | .remove loc _ => IO.FS.removeFile (place loc)
  | .put loc .directory => IO.FS.createDir (place loc)
  | .put loc (.file bytes) => IO.FS.writeBinFile (place loc) bytes
  | .put _ (.link _) => return

end SiteTree.Main

open SiteTree SiteTree.Main in
def main (args : List String) : IO UInt32 := do
  let here ← IO.currentDir
  let cwd := (FileSystem.steps here.toString.toList).filter (· ≠ "")
  let before ← gather args cwd [] ⟨.empty, []⟩
  let (report, after) := CommandLine.run args before
  (FileSystem.edits before.files after.files).forM carryOut
  IO.print report.stdout
  IO.eprint report.stderr
  return report.exit.toUInt32
