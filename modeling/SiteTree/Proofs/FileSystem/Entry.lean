import SiteTree.Proofs.Action
import SiteTree.Proofs.FileSystem.Descent
import SiteTree.Proofs.FileSystem.Listing

/-!
The entries of a directory with no link in it are what stands in it, in the order of their names.
-/

namespace SiteTree.FileSystem

open SiteTree.Action

variable {fs : FileSystem} {dir x : Location} {p : Path} {w : World}

def isDirectoryAt (fs : FileSystem) (x : Location) : Bool := (fs.at? x).any FileNode.isDirectory

theorem isDirectoryAt_iff : isDirectoryAt fs x = true ↔ fs.at? x = some .directory := by
  rw [isDirectoryAt]
  rcases fs.at? x with _ | (_ | _ | _) <;> simp [FileNode.isDirectory]

/-- Where there are no links the entries of a directory are what stands in it. -/
theorem entriesOf_eq (hw : w.files.WellFormed) (hl : w.files.LeadsTo w.cwd p dir)
    (hlink : ∀ s target, w.files.at? (dir ++ [s]) ≠ some (.link target)) : entriesOf p w =
      .ok ((w.files.children dir).map fun n => ⟨n, p.child n, isDirectoryAt w.files (dir ++ [n])⟩) w := by
  have hlist : look (fun fs cwd => fs.list cwd p) (.read p) w = .ok (w.files.children dir) w := by
    rw [look_eq, hl.list]
  refine (bind_ok hlist).trans (mapM_reads fun n hn => ?_)
  have hname := hw.isName (mem_children.1 hn)
  obtain ⟨node, hnode⟩ := Option.isSome_iff_exists.1 (mem_children.1 hn)
  have hfound := hl.found_child hname hnode (Bool.eq_false_iff.2 fun hc => by
    cases node with
    | link target => exact hlink n target hnode
    | file | directory => cases hc)
  have hlook : look (fun fs cwd => fs.found cwd (p.child n)) (.read (p.child n)) w = .ok (dir ++ [n], node) w := by
    rw [look_eq, hfound]
  refine (bind_ok hlook).trans ?_
  rw [isDirectoryAt, hnode]
  rfl

end SiteTree.FileSystem
