import SiteTree.Proofs.FileSystem.Rename

/-!
Removing a directory: what goes, what stays, and why it may be refused.
-/

namespace SiteTree.FileSystem

open SiteTree.Path

variable {fs fs' : FileSystem} {cwd dir loc x : Location} {l : List String} {s : String} {node : FileNode}
  {p : Path} {cause : Cause} {bytes : ByteArray}

theorem LinkFree.remove (h : fs.LinkFree loc) (x : Location) : (fs.remove x).LinkFree loc := by
  intro y target hy hl
  by_cases hyn : y = []
  · subst hyn; cases hl
  · rw [at?_remove fs x hyn] at hl
    split at hl
    · cases hl
    · exact h y target hy hl

theorem removeDirectory_error (h : fs.resolve cwd false p = .error cause) :
    fs.removeDirectory cwd p = .error (cause, fs) := by
  rw [removeDirectory, h]

theorem removeDirectory_ok (h : fs.removeDirectory cwd p = .ok fs') :
    ∃ loc node, fs.resolve cwd false p = .ok (.found loc node) ∧ fs' = fs.remove loc := by
  rw [removeDirectory] at h
  split at h
  · cases h
  · cases h
  · cases h
  · next hr => cases h; exact ⟨_, _, hr, rfl⟩
  · next loc hr =>
    refine ⟨loc, _, hr, ?_⟩
    split at h
    · cases h
    · cases h
    · cases h
    · split at h
      · cases h
      · exact (Except.ok.inj h).symm

theorem removeDirectory_missing (h : fs.removeDirectory cwd p = .error (.missing, fs')) : fs' = fs := by
  rw [removeDirectory] at h
  split at h
  · cases h; rfl
  · cases h; rfl
  · cases h
  · cases h
  · split at h
    · cases h
    · cases h
    · cases h
    · split at h <;> cases h

theorem target_snd (hp : p.Spells (l ++ [s])) (hs : IsStep s) : (target p).2 = .name :=
  target_name hp.stretches hs

variable (hr : fs.Reaches l dir) (hp : p.Spells (l ++ [s])) (hs : IsStep s)

include hr hp hs

theorem locate_step : fs.locate cwd p = .ok (fs.placeIn dir s) := by
  rw [hp.locate_eq, hr.step (fun hc => ne_empty_of_spells hp (List.mem_append_left _ hc)) hs]

theorem resolve_step (ho : p.IsOpen) : fs.resolve cwd false p = .ok (fs.placeIn dir s) := by
  rw [hp.resolve_open ho, hr.step (fun hc => ne_empty_of_spells hp (List.mem_append_left _ hc)) hs]

theorem resolve_vacant (hn : fs.at? (dir ++ [s]) = none) (follow : Bool) :
    ∃ slashed, fs.resolve cwd follow p = .ok (.vacant dir s slashed) := by
  have hempty : "" ∉ l := fun hc => ne_empty_of_spells hp (List.mem_append_left _ hc)
  rcases hp.resolve_eq fs cwd follow with he | ⟨-, he⟩
  · obtain ⟨m, hm⟩ := hr.walk_below follow hempty (List.cons_ne_nil s [])
    exact ⟨false, he.trans (hm.trans (Leads.walk_eq (.vacant hr.directory hs hn)))⟩
  · rw [List.append_assoc] at he
    obtain ⟨m, hm⟩ := hr.walk_below follow hempty (List.cons_ne_nil s [""])
    exact ⟨true, he.trans (hm.trans (Leads.walk_eq (.slashed hr.directory hs hn)))⟩

theorem removeDirectory_vacant (hn : fs.at? (dir ++ [s]) = none) :
    fs.removeDirectory cwd p = .error (.missing, fs) := by
  obtain ⟨slashed, hv⟩ := resolve_vacant hr hp hs hn false
  rw [removeDirectory, hv]

theorem removeDirectory_file (ho : p.IsOpen) (hn : fs.at? (dir ++ [s]) = some (.file bytes)) :
    fs.removeDirectory cwd p = .error (.notDirectory, fs) := by
  rw [removeDirectory, resolve_step hr hp hs ho, placeIn, hn]

theorem removeDirectory_other (ho : p.IsOpen) (hn : fs.at? (dir ++ [s]) = some node) (hnode : ¬ node.IsFile) :
    fs.removeDirectory cwd p = .ok (fs.remove (dir ++ [s])) := by
  rw [removeDirectory, resolve_step hr hp hs ho, placeIn, hn]
  cases node with
  | file bytes => exact absurd ⟨bytes, rfl⟩ hnode
  | link target => rfl
  | directory =>
      simp only
      rw [target_snd hp hs, locate_step hr hp hs, placeIn, hn]

end SiteTree.FileSystem
