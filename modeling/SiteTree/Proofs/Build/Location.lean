import SiteTree.Build
import SiteTree.Proofs.Asset.Confined
import SiteTree.Proofs.FileSystem.Names
import SiteTree.Proofs.Walk.Meets

/-!
Where the output of a build is: either a name in a directory that is there, or the absolute path
as it was written, whose parent leads nowhere.
-/

namespace SiteTree.Build

open FileSystem SiteTree.Path

variable {fs : FileSystem} {cwd loc dir : Location} {l : List String} {s name : String} {node : FileNode}
  {p q output : Path}

/-- A path that leads to something: its location has proper names and holds no link. -/
theorem canonical_ok (hw : fs.WellFormed) (h : fs.canonical cwd q = .ok p) :
    ∃ loc node, p = pathOf loc ∧ fs.at? loc = some node ∧ ∀ target, node ≠ .link target := by
  rw [canonical] at h
  cases hf : fs.found cwd q with
  | error cause => rw [hf] at h; cases h
  | ok place =>
      obtain ⟨loc, node⟩ := place
      rw [hf] at h
      cases h
      have hr := found_eq_ok.1 hf
      rw [resolve] at hr
      split at hr
      · cases hr
      · have hleads := Leads.of_walk hr
        have hstart := hleads.begins (steps_ne_nil _)
        refine ⟨loc, node, rfl, hleads.at?_found, hleads.not_link hw fun target ht => ?_⟩
        cases ht.symm.trans hstart

theorem canonical_at? (h : fs.canonical cwd q = .ok p) : ∃ loc node, p = pathOf loc ∧ fs.at? loc = some node := by
  rw [canonical] at h
  cases hf : fs.found cwd q with
  | error cause => rw [hf] at h; cases h
  | ok place =>
      obtain ⟨loc, node⟩ := place
      rw [hf] at h
      cases h
      have hr := found_eq_ok.1 hf
      rw [resolve] at hr
      split at hr
      · cases hr
      · exact ⟨loc, node, rfl, (Leads.of_walk hr).at?_found⟩

theorem canonical_spells (hw : fs.WellFormed) (h : fs.canonical cwd q = .ok p) : ∃ loc, p.Spells loc := by
  obtain ⟨loc, node, rfl, hat⟩ := canonical_at? h
  exact ⟨loc, spells_pathOf (hw.isName_of_mem (by rw [hat]; rfl))⟩

theorem canonical_error {cause : Cause} (hq : q.Spells l) (h : fs.canonical cwd q = .error cause)
    (dir : Location) :
    ¬ fs.Reaches l dir := by
  intro hr
  have hd : fs.isDirectory cwd q = true := (isDirectory_iff hq).2 ⟨dir, hr⟩
  rw [canonical] at h
  rw [isDirectory] at hd
  cases hf : fs.found cwd q with
  | error cause => rw [hf] at hd; cases hd
  | ok place => rw [hf] at h; cases h

theorem outputLocation_unnamed (ha : absolute cwd output = .ok p) (hn : p.fileName? = none) :
    outputLocation fs cwd output = .ok p := by
  cases hp : p.parent? <;> simp [outputLocation, ha, hp, hn, bind, Except.bind]

theorem outputLocation_resolved {parent dir : Path} (ha : absolute cwd output = .ok p)
    (hp : p.parent? = some parent)
    (hn : p.fileName? = some name) (hc : fs.canonical cwd parent = .ok dir) :
    outputLocation fs cwd output = .ok (dir.child name) := by
  simp [outputLocation, ha, hp, hn, hc, bind, Except.bind]

theorem outputLocation_unresolved {parent : Path} {cause : Cause} (ha : absolute cwd output = .ok p)
    (hp : p.parent? = some parent) (hn : p.fileName? = some name)
    (hc : fs.canonical cwd parent = .error cause) :
    outputLocation fs cwd output = .ok p := by
  simp [outputLocation, ha, hp, hn, hc, bind, Except.bind]

/-- The output is the absolute path as it is written, or a name in what its parent leads to. -/
theorem outputLocation_cases (hw : fs.WellFormed) (hcwd : ∀ s ∈ cwd, IsName s)
    (h : outputLocation fs cwd output = .ok p) :
    (p.Spells (absoluteNames cwd output) ∧
      ∀ l s, absoluteNames cwd output = l ++ [s] → s ≠ ".." → ∀ dir, ¬ fs.Reaches l dir) ∨
    ∃ l loc s node, absoluteNames cwd output = l ++ [s] ∧ IsName s ∧ p.Spells (loc ++ [s]) ∧ p.IsOpen ∧
      fs.at? loc = some node ∧ ∀ target, node ≠ .link target := by
  cases ha : absolute cwd output with
  | error cause => rw [outputLocation, ha] at h; cases h
  | ok path =>
  have hspells := absolute_spells hcwd ha
  generalize absoluteNames cwd output = names at hspells ⊢
  rcases List.eq_nil_or_concat' names with rfl | ⟨l, s, rfl⟩
  · rw [outputLocation_unnamed ha (by rw [fileName?, hspells.fileChars_nil]; rfl)] at h
    cases h
    exact .inl ⟨hspells, by simp⟩
  · obtain ⟨parent, hparent, hps⟩ := hspells.parent
    have hs : s ∈ l ++ [s] := by simp
    by_cases hup : s = ".."
    · subst hup
      rw [outputLocation_unnamed ha (by rw [fileName?, hspells.fileChars_up]; rfl)] at h
      cases h
      refine .inl ⟨hspells, fun l' s' he hne => ?_⟩
      obtain ⟨-, he⟩ := List.append_inj' he rfl
      exact absurd (by simpa using he.symm) hne
    · have hname : IsName s := hspells.isName hs hup
      have hfile : path.fileName? = some s := by
        rw [fileName?, hspells.fileChars hup, Option.map_some, String.ofList_toList]
      cases hc : fs.canonical cwd parent with
      | error cause =>
          rw [outputLocation_unresolved ha hparent hfile hc] at h
          cases h
          refine .inl ⟨hspells, fun l' s' he _ => ?_⟩
          obtain ⟨rfl, -⟩ := List.append_inj' he rfl
          exact canonical_error hps hc
      | ok canonicalParent =>
          rw [outputLocation_resolved ha hparent hfile hc] at h
          cases h
          obtain ⟨loc, node, rfl, hat, hlink⟩ := canonical_ok hw hc
          have hloc := hw.isName_of_mem (by rw [hat]; rfl)
          obtain ⟨hchild, hopen⟩ := (spells_pathOf hloc).child hname
          exact .inr ⟨l, loc, s, node, rfl, hname, hchild, hopen, hat, hlink⟩

def hiddenName (name : String) : String := "." ++ name ++ ".staging"

theorem isName_hiddenName (h : '/' ∉ name.toList) : IsName (hiddenName name) := by
  have hd : ¬ IsDots (hiddenName name).toList := fun hd => absurd (hd 's' (by simp [hiddenName])) (by decide)
  have hslash : '/' ∉ (hiddenName name).toList := by simp [hiddenName, h]
  simpa using isName_of_not_isDots hslash hd

/-- The staging directory is beside the output, or in it if the output does not end in a name. -/
theorem stagingPath_spells (hp : p.Spells l) : ∃ m name, '/' ∉ name.toList ∧
    (stagingPath p).Spells (m ++ [hiddenName name]) ∧ (stagingPath p).IsOpen ∧
      (l = m ++ [name] ∧ IsName name ∨ m = l) := by
  have hunnamed : p.fileChars? = none → (stagingPath p).Spells (l ++ [hiddenName "output"]) ∧
    (stagingPath p).IsOpen := by
    intro hn
    have hs : stagingPath p = p.child (hiddenName "output") := by
      rw [stagingPath, fileName?, withFileName, hn]
      rfl
    rw [hs]
    exact hp.child (isName_hiddenName (by decide))
  by_cases hstep : ∃ m s, l = m ++ [s] ∧ s ≠ ".."
  · obtain ⟨m, s, rfl, hup⟩ := hstep
    have hname : IsName s := hp.isName (by simp) hup
    have hslash : '/' ∉ s.toList := hname.2.2.2
    have hst : stagingPath p = p.withFileName (hiddenName s) := by
      rw [stagingPath, fileName?, hp.fileChars hup]
      simp [hiddenName]
    obtain ⟨hspells, hopen⟩ := hp.withFileName hup (isName_hiddenName hslash)
    exact ⟨m, s, hslash, hst ▸ hspells, hst ▸ hopen, .inl ⟨rfl, hname⟩⟩
  · have hn : p.fileChars? = none := by
      rcases List.eq_nil_or_concat' l with rfl | ⟨m, s, rfl⟩
      · exact hp.fileChars_nil
      · obtain rfl : s = ".." := by
          by_contra hne
          exact hstep ⟨m, s, rfl, hne⟩
        exact hp.fileChars_up
    obtain ⟨hspells, hopen⟩ := hunnamed hn
    exact ⟨l, "output", by decide, hspells, hopen, .inr rfl⟩

end SiteTree.Build
