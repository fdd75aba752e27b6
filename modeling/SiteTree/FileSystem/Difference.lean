import SiteTree.FileSystem.Basic

/-!
The steps that turn one tree of files into another: what went is removed from the deepest place up,
then what is new is put from the highest place down.
-/

namespace SiteTree

inductive Edit where
  | remove (loc : Location) (node : FileNode)
  | put (loc : Location) (node : FileNode)
  deriving DecidableEq

namespace FileSystem

/-- A file may take the place of a file; nothing else can without a removal. -/
def replaceable : FileNode → FileNode → Bool
  | .file _, .file _ => true
  | a, b => a = b

def isGone (new : FileSystem) (e : Location × FileNode) : Bool :=
  match new.at? e.1 with
  | some node => !replaceable e.2 node
  | none => true

def isNew (old : FileSystem) (e : Location × FileNode) : Bool := old.at? e.1 ≠ some e.2

def edits (old new : FileSystem) : List Edit :=
  let gone := (old.entries.filter (isGone new)).mergeSort fun a b => b.1.length ≤ a.1.length
  let added := (new.entries.filter (isNew old)).mergeSort fun a b => a.1.length ≤ b.1.length
  gone.map (fun e => .remove e.1 e.2) ++ added.map fun e => .put e.1 e.2

end FileSystem

end SiteTree
