import SiteTree.Proofs.FileSystem.Confined

/-!
Writing files and making directories anywhere in a tree, through whatever path: nothing goes, nothing but a file is
changed, and no link comes.
-/

namespace SiteTree.FileSystem

open SiteTree.Path

variable {start fs fs' : FileSystem} {cwd x : Location} {l : List String} {node : FileNode} {p source : Path}
  {place : Place} {bytes : ByteArray}

/-- A tree in which files have been written and directories been made since. -/
structure Written (start fs : FileSystem) : Prop where
  wellFormed : fs.WellFormed
  outgrows : start.Outgrows fs
  file : ∀ {x bytes}, start.at? x = some (.file bytes) → ∃ new, fs.at? x = some (.file new)
  link : ∀ {x target}, fs.at? x = some (.link target) → start.at? x = some (.link target)

/-- A path that a file is written through does not end in a slash. -/
theorem isOpen_of_write (h : fs.write cwd p bytes = .ok fs') : p.IsOpen := by
  by_contra ho
  have hs : endsInSlash p = true := by simpa [endsInSlash, Path.IsOpen] using ho
  rw [write, if_pos hs] at h
  dsimp only at h
  cases hr : fs.resolveSteps true (startOf cwd p.text.toList) ((target p).1.dropLast ++ ["."]) with
  | error cause => rw [hr] at h; cases h
  | ok place => rw [hr] at h; cases h

theorem leads_of_resolve {follow : Bool} (h : fs.resolve cwd follow p = .ok place) :
    fs.Leads follow (maxLinks + 1) (startOf cwd p.text.toList) (steps p.text.toList) place := by
  rw [resolve] at h
  split at h
  · cases h
  · exact Leads.of_walk h

/-- A file is written in a directory, in the place of a file or where nothing was. -/
theorem write_place (hw : fs.WellFormed) (h : fs.write cwd p bytes = .ok fs') : ∃ place dir name,
    fs.resolve cwd true p = .ok place ∧ place.location = dir ++ [name] ∧ fs' = fs.put (dir ++ [name]) (.file bytes) ∧
      fs.at? dir = some .directory ∧ IsName name ∧
      (fs.at? (dir ++ [name]) = none ∨ ∃ old, fs.at? (dir ++ [name]) = some (.file old)) := by
  obtain ⟨place, hr, rfl, hf⟩ := write_ok (isOpen_of_write h) h
  have hl := leads_of_resolve hr
  obtain ⟨-, dir, name, heq, hd, hname⟩ := hw.parent_of_place hl (fun s hs => not_slash_of_mem_steps hs) hf
  refine ⟨place, dir, name, hr, heq, by rw [heq], hd, hname, ?_⟩
  rw [← heq]
  cases place with
  | vacant parent s slashed => exact .inl hl.vacancy.2.2
  | found loc node =>
      obtain ⟨old, rfl⟩ := hf loc node rfl
      exact .inr ⟨old, hl.at?_found⟩

namespace Written

theorem refl (h : fs.WellFormed) : Written fs fs := ⟨h, fun _ _ hx _ => hx, fun hx => ⟨_, hx⟩, id⟩

theorem linkFree {root : Location} (h : Written start fs) (hfree : start.LinkFree root) : fs.LinkFree root :=
  fun x target hx hl => hfree x target hx (h.link hl)

theorem grows (h : Written start fs) (hg : fs.Grows fs') (hw : fs'.WellFormed) : Written start fs' := by
  refine ⟨hw, fun x node hx hfile => hg.at?_eq (h.outgrows x node hx hfile), fun hx => ?_, fun {x target} hl => ?_⟩
  · obtain ⟨new, hnew⟩ := h.file hx
    exact ⟨new, hg.at?_eq hnew⟩
  · rcases hg x with he | ⟨-, hd⟩
    · exact h.link (he ▸ hl)
    · cases hd.symm.trans hl

theorem put (h : Written start fs) {dir : Location} {name : String} (hd : fs.at? dir = some .directory)
    (hname : IsName name) (hx : fs.at? (dir ++ [name]) = none ∨ ∃ old, fs.at? (dir ++ [name]) = some (.file old)) :
    Written start (fs.put (dir ++ [name]) (.file bytes)) := by
  have hself : (fs.put (dir ++ [name]) (.file bytes)).at? (dir ++ [name]) = some (.file bytes) := at?_put_self fs _ (by simp)
  have hne : fs.at? (dir ++ [name]) ≠ some .directory := by
    rcases hx with he | ⟨old, he⟩ <;> simp [he]
  have hother : ∀ {y}, y ≠ dir ++ [name] → (fs.put (dir ++ [name]) (.file bytes)).at? y = fs.at? y :=
    fun hy => h.wellFormed.at?_put hne hy
  refine ⟨h.wellFormed.put hd hname, fun y node hy hfile => ?_, fun {y old} hy => ?_, fun {y target} hl => ?_⟩
  · have hthere := h.outgrows y node hy hfile
    rw [hother ?_, hthere]
    rintro rfl
    rcases hx with he | ⟨old, he⟩
    · cases he.symm.trans hthere
    · cases he.symm.trans hthere
      exact hfile ⟨old, rfl⟩
  · by_cases he : y = dir ++ [name]
    · exact ⟨bytes, he ▸ hself⟩
    · rw [hother he]
      exact h.file hy
  · by_cases he : y = dir ++ [name]
    · rw [he, hself] at hl
      cases hl
    · exact h.link (hother he ▸ hl)

theorem write (h : Written start fs) (hw : fs.write cwd p bytes = .ok fs') : Written start fs' := by
  obtain ⟨place, dir, name, -, -, rfl, hd, hname, hx⟩ := write_place h.wellFormed hw
  exact h.put hd hname hx

theorem copy (h : Written start fs) (hc : fs.copy cwd source p = .ok fs') : Written start fs' := by
  obtain ⟨cleared, hw, rfl | ⟨bytes, hw'⟩⟩ := copy_ok hc
  · exact h.write hw
  · exact (h.write hw).write hw'

theorem makeDirectories (h : Written start fs) (cwd : Location) (p : Path) :
    Written start (left (fs.makeDirectories cwd p)) := by
  obtain ⟨hw, hg⟩ := makeDirectories_grows h.wellFormed cwd p
  exact h.grows hg hw

end Written

end SiteTree.FileSystem
