import SiteTree.Failure.Cause
import SiteTree.FileSystem.Basic
import SiteTree.Path

/-!
What a path denotes. The walk goes from name to name, each time in a directory that is there, and
follows at most forty links on the way.
-/

namespace SiteTree.FileSystem

open Text

/-- The place that a path denotes: something that is there, or a free name in a directory. -/
inductive Place where
  | found (loc : Location) (node : FileNode)
  | vacant (parent : Location) (name : String) (slashed : Bool)
  deriving DecidableEq

/-- The stretches of a path. A slash at the end stays as an empty last stretch. -/
def steps (s : List Char) : List String :=
  match splitLast? '/' s with
  | none => [String.ofList s]
  | some (before, last) =>
    ((split '/' before).filter (!·.isEmpty)).map String.ofList ++ [String.ofList last]

def startOf (cur : Location) (s : List Char) : Location := if s.head? = some '/' then [] else cur

/-- Goes through the stretches. A link is handed to `jump` with its directory and what follows. -/
def walkWith (fs : FileSystem) (jump : Location → String → List String → Except Cause Place)
    (follow : Bool) : Location → List String → Except Cause Place
  | cur, [] =>
    match fs.at? cur with
    | some node => .ok (.found cur node)
    | none => .error .missing
  | cur, s :: rest =>
    match fs.at? cur with
    | some .directory =>
      if s = "" || s = "." then walkWith fs jump follow cur rest
      else if s = ".." then walkWith fs jump follow cur.dropLast rest
      else
        match fs.at? (cur ++ [s]) with
        | none =>
          if rest = [] then .ok (.vacant cur s false)
          else if rest = [""] then .ok (.vacant cur s true)
          else .error .missing
        | some (.link target) =>
          if rest.isEmpty && !follow then .ok (.found (cur ++ [s]) (.link target))
          else jump cur target rest
        | some _ => walkWith fs jump follow (cur ++ [s]) rest
    | none => .error .missing
    | some _ => .error .notDirectory

/-- A slash at the end of a target matters only if nothing follows it. -/
def targetSteps (target : List Char) (rest : List String) : List String :=
  if rest.isEmpty then steps target else (steps target).filter (· ≠ "") ++ rest

/-- Walks with a number of links left to follow. -/
def walk (fs : FileSystem) (follow : Bool) : Nat → Location → List String → Except Cause Place
  | 0 => fun _ _ => .error .linkLoop
  | n + 1 => walkWith fs (fun cur target rest =>
      walk fs follow n (startOf cur target.toList) (targetSteps target.toList rest)) follow

def maxLinks : Nat := 40

/-- No way into the tree has so many directories on it: from one link to the next there are no more of
them than the tree has entries. -/
def maxDepth (fs : FileSystem) : Nat := (maxLinks + 1) * (fs.entries.length + 1)

def resolveSteps (fs : FileSystem) (follow : Bool) (start : Location) (steps : List String) :
    Except Cause Place :=
  fs.walk follow (maxLinks + 1) start steps

/-- With `follow` a link at the end is followed too. -/
def resolve (fs : FileSystem) (cwd : Location) (follow : Bool) (path : Path) : Except Cause Place :=
  if path.isEmpty then .error .missing
  else fs.resolveSteps follow (startOf cwd path.text.toList) (steps path.text.toList)

def found (fs : FileSystem) (cwd : Location) (path : Path) : Except Cause (Location × FileNode) := do
  match ← fs.resolve cwd true path with
  | .found loc node => .ok (loc, node)
  | .vacant _ _ _ => .error .missing

def pathOf (loc : Location) : Path := ⟨"/" ++ "/".intercalate loc⟩

def pathExists (fs : FileSystem) (cwd : Location) (path : Path) : Bool :=
  match fs.found cwd path with
  | .ok _ => true
  | .error _ => false

def isDirectory (fs : FileSystem) (cwd : Location) (path : Path) : Bool :=
  match fs.found cwd path with
  | .ok (_, node) => node.isDirectory
  | .error _ => false

/-- The one spelling of a path that is absolute and free of dots and links. -/
def canonical (fs : FileSystem) (cwd : Location) (path : Path) : Except Cause Path := do
  let (loc, _) ← fs.found cwd path
  .ok (pathOf loc)

def readFile (fs : FileSystem) (cwd : Location) (path : Path) : Except Cause ByteArray := do
  match ← fs.found cwd path with
  | (_, .file bytes) => .ok bytes
  | _ => .error .isDirectory

def readText (fs : FileSystem) (cwd : Location) (path : Path) : Except Cause String := do
  let bytes ← fs.readFile cwd path
  match String.fromUTF8? bytes with
  | some s => .ok s
  | none => .error .notText

def list (fs : FileSystem) (cwd : Location) (path : Path) : Except Cause (List String) := do
  match ← fs.found cwd path with
  | (loc, .directory) => .ok (fs.children loc)
  | _ => .error .notDirectory

/-- The absolute spelling of a path. Dots and repeated slashes go, links and double dots stay, and
so do a slash at the end and exactly two at the start. -/
def absolute (cwd : Location) (path : Path) : Except Cause Path :=
  let s := path.text.toList
  let names := (split '/' s).filter fun n => !n.isEmpty && n != ['.']
  let body := String.ofList (glue '/' names)
  let close (t : String) : String :=
    if s.getLast? = some '/' && t.toList.getLast? ≠ some '/' then t ++ "/" else t
  match s with
  | [] => .error .emptyPath
  | '/' :: '/' :: c :: _ => .ok ⟨close ((if c = '/' then "/" else "//") ++ body)⟩
  | ['/', '/'] => .ok ⟨"//"⟩
  | '/' :: _ => .ok ⟨close ("/" ++ body)⟩
  | _ => .ok ⟨close (if names.isEmpty then pathOf cwd else (pathOf cwd).join ⟨body⟩).text⟩

end SiteTree.FileSystem
