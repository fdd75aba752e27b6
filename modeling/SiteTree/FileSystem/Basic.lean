import SiteTree.Text.Split

/-!
A tree of files as a finite map from locations. The root is always a directory. Putting something
at a location removes all that was there and below before, so nothing is ever below a file.
-/

namespace SiteTree

abbrev Location := List String

inductive FileNode where
  | file (bytes : ByteArray)
  | link (target : String)
  | directory

instance FileNode.instDecidableEq : DecidableEq FileNode
  | .file a, .file b =>
    match ByteArray.instDecidableEq a b with
    | isTrue h => isTrue (by rw [h])
    | isFalse h => isFalse fun e => h (FileNode.file.inj e)
  | .link s, .link t =>
    match String.decEq s t with
    | isTrue h => isTrue (by rw [h])
    | isFalse h => isFalse fun e => h (FileNode.link.inj e)
  | .directory, .directory => isTrue rfl
  | .file _, .link _ => isFalse nofun
  | .file _, .directory => isFalse nofun
  | .link _, .file _ => isFalse nofun
  | .link _, .directory => isFalse nofun
  | .directory, .file _ => isFalse nofun
  | .directory, .link _ => isFalse nofun

def FileNode.isDirectory : FileNode → Bool
  | .directory => true
  | _ => false

structure FileSystem where
  entries : List (Location × FileNode)

namespace FileSystem

def empty : FileSystem := ⟨[]⟩

def at? (fs : FileSystem) (loc : Location) : Option FileNode :=
  if loc.isEmpty then some .directory else fs.entries.lookup loc

def remove (fs : FileSystem) (loc : Location) : FileSystem :=
  ⟨fs.entries.filter fun e => !loc.isPrefixOf e.1⟩

def put (fs : FileSystem) (loc : Location) (node : FileNode) : FileSystem :=
  ⟨(loc, node) :: (fs.remove loc).entries⟩

def dropLocation? : Location → Location → Option Location
  | [], l => some l
  | _ :: _, [] => none
  | a :: r, b :: l => if a = b then dropLocation? r l else none

/-- What is at and below the old location is at and below the new one afterwards. -/
def move (fs : FileSystem) (old new : Location) : FileSystem :=
  let moved := fs.entries.filterMap fun e => (dropLocation? old e.1).map fun l => (new ++ l, e.2)
  ⟨moved ++ ((fs.remove old).remove new).entries⟩

def insertName (name : String) : List String → List String
  | [] => [name]
  | n :: r => if name = n then n :: r else if name < n then name :: n :: r else n :: insertName name r

def childName? (loc : Location) (e : Location × FileNode) : Option String :=
  match dropLocation? loc e.1 with
  | some [name] => some name
  | _ => none

def children (fs : FileSystem) (loc : Location) : List String :=
  (fs.entries.filterMap (childName? loc)).foldr insertName []

end FileSystem

end SiteTree
