import SiteTree.Proofs.Build.Location

/-!
Which outputs are refused: only those that are or contain the source, and all of those but for
double dots that are not resolved and links that are not followed.
-/

namespace SiteTree.Build

open FileSystem SiteTree.Path

variable {fs fs' : FileSystem} {cwd loc dir sl : Location} {l : List String} {s : String} {node : FileNode}
  {p output source : Path} {w : World}

/-- A path denotes a location or one above it, as things are or once the levels above the path
are made. -/
def Holds (fs : FileSystem) (cwd : Location) (p : Path) (loc : Location) : Prop :=
  ∃ fs' place, (fs' = fs ∨ ∃ parent, p.parent? = some parent ∧ fs.makeDirectories cwd parent = .ok fs') ∧
    fs'.resolve cwd true p = .ok place ∧ place.location <+: loc

/-- The last stretch of a path is not taken for a link. -/
def EndsInLink (fs : FileSystem) (cwd : Location) (p : Path) : Prop :=
  ∃ loc target, fs.resolve cwd false p = .ok (.found loc (.link target))

theorem outputFor_eq (hp : outputLocation w.files w.cwd output = .ok p) : outputFor output source w =
    if source.startsWith p then .error (.settings (.outputHoldsSource output)) w else .ok p w := by
  have hl : Action.look (fun fs cwd => outputLocation fs cwd output) .system w = .ok p w := by
    rw [Action.look_eq, hp]
  rw [outputFor, Action.bind_ok hl]
  split <;> rfl

theorem Holds.grown (hw : fs.WellFormed) (h : fs' = fs ∨ ∃ parent, p.parent? = some parent ∧
    fs.makeDirectories cwd parent = .ok fs') : fs'.WellFormed ∧ fs.Grows fs' := by
  rcases h with rfl | ⟨parent, -, hm⟩
  · exact ⟨hw, Grows.refl _⟩
  · have hg := makeDirectories_grows hw cwd parent
    rwa [hm] at hg

theorem holds_of_above (hw : fs.WellFormed) (hp : p.Spells l) (hs : fs.at? sl = some .directory)
    (hpre : l <+: sl) : Holds fs cwd p sl :=
  ⟨fs, _, .inl rfl, (hw.reaches_self (hw.directory_above hs hpre)).resolve hp cwd, hpre⟩

/-- In a directory that is there the output denotes its own location. -/
theorem above_of_holds (hw : fs.WellFormed) (hname : IsName s) (hp : p.Spells (loc ++ [s])) (ho : p.IsOpen)
    (hat : fs.at? loc = some node) (hnode : ∀ target, node ≠ .link target) (hlink : ¬ EndsInLink fs cwd p)
    (h : Holds fs cwd p sl) : loc ++ [s] <+: sl := by
  obtain ⟨fs', place, hfs', hr, hpre⟩ := h
  obtain ⟨hw', hg⟩ := Holds.grown hw hfs'
  obtain ⟨dir, m, hdir, hl⟩ := place_of_resolve hp hname.isStep hr
  obtain ⟨rfl, rfl⟩ := hw'.directory_of_reaches (hg.at?_eq hat) hnode hdir
  have hempty : "" ∉ dir := fun hc => ne_empty_of_spells hp (List.mem_append_left _ hc)
  have hstep : ∀ target, fs'.at? (dir ++ [s]) ≠ some (.link target) := by
    intro target ht
    rcases hg (dir ++ [s]) with he | ⟨-, hd⟩
    · have hreach : fs.Reaches dir dir := hw.reaches_self hat
      refine hlink ⟨dir ++ [s], target, ?_⟩
      rw [hp.resolve_open ho, hreach.step hempty hname.isStep, placeIn, ← he, ht]
    · rw [hd] at ht
      cases ht
  rcases hl with hl | ⟨-, hl⟩
  · rwa [hl.location_step (.inl rfl) hname.isStep hstep] at hpre
  · rwa [hl.location_step (.inr rfl) hname.isStep hstep] at hpre

theorem not_holds_of_unreached (hw : fs.WellFormed) (hs : fs.at? sl = some .directory) (hname : IsName s)
    (hp : p.Spells (l ++ [s])) (hup : ".." ∉ l) (hnone : ∀ dir, ¬ fs.Reaches l dir) :
    ¬ Holds fs cwd p sl := by
  rintro ⟨fs', place, hfs', hr, hpre⟩
  obtain ⟨dir, m, hdir, hl⟩ := place_of_resolve hp hname.isStep hr
  rcases hfs' with rfl | ⟨parent, hparent, hmade⟩
  · exact hnone dir hdir
  · obtain ⟨q, hq, hqs⟩ := hp.parent
    obtain rfl : q = parent := Option.some.inj (hq.symm.trans hparent)
    rcases makeDirectories_spelled hw cwd hqs hup with ⟨cause, hm⟩ | ⟨-, loc, hreach⟩ | ⟨fs₁, loc, hm, made⟩
    · rw [hm] at hmade; cases hmade
    · exact hnone loc hreach
    · rw [hm] at hmade
      cases hmade
      obtain rfl : dir = loc := hdir.unique (made.leads true)
      have hfree : fs'.at? (dir ++ [s]) = none := by
        rw [made.at?_apart not_append_isPrefix]
        exact hw.at?_below (by simp [made.vacant]) (List.prefix_append _ _) (by simp)
      have hlink : ∀ target, fs'.at? (dir ++ [s]) ≠ some (.link target) := by simp [hfree]
      have hloc : place.location = dir ++ [s] := by
        rcases hl with hl | ⟨-, hl⟩
        · exact hl.location_step (.inl rfl) hname.isStep hlink
        · exact hl.location_step (.inr rfl) hname.isStep hlink
      rw [hloc] at hpre
      have hd := hw.directory_above hs ((List.prefix_append dir [s]).trans hpre)
      rw [made.vacant] at hd
      cases hd

/-- A path without double dots and without a link in its place holds what is below its stretches. -/
theorem outputLocation_holds (hw : fs.WellFormed) (hcwd : ∀ s ∈ cwd, IsName s) (hs : fs.at? sl = some .directory)
    (hp : outputLocation fs cwd output = .ok p) : ∃ l, p.Spells l ∧
      (.up ∉ p.components → ¬ EndsInLink fs cwd p → Holds fs cwd p sl → l <+: sl) := by
  rcases outputLocation_cases hw hcwd hp with
    ⟨hspells, hnone⟩ | ⟨-, loc, s, node, -, hname, hspells, ho, hat, hnode⟩
  · generalize absoluteNames cwd output = names at hspells hnone
    refine ⟨names, hspells, fun hup _ h => ?_⟩
    rw [up_mem_components, hspells.stretches] at hup
    by_cases hnil : names = []
    · rw [hnil]
      exact List.nil_prefix
    · obtain ⟨l, s, rfl, hname⟩ := exists_step hspells hup hnil
      have hunreached := hnone l s rfl hname.2.2.1
      have hupl : ".." ∉ l := fun hc => hup (List.mem_append_left _ hc)
      exact absurd h (not_holds_of_unreached hw hs hname hspells hupl hunreached)
  · exact ⟨loc ++ [s], hspells, fun _ hlink h => above_of_holds hw hname hspells ho hat hnode hlink h⟩

/-- An output that is refused is or contains the source. One that is accepted does not, unless
double dots are left in its path or a link is in its place. -/
theorem outputFor_cases (hw : w.files.WellFormed) (hcwd : ∀ s ∈ w.cwd, IsName s)
    (hs : w.files.at? sl = some .directory) (hp : outputLocation w.files w.cwd output = .ok p) :
    (outputFor output (pathOf sl) w = .error (.settings (.outputHoldsSource output)) w ∧
      Holds w.files w.cwd p sl) ∨
    (outputFor output (pathOf sl) w = .ok p w ∧
      (Holds w.files w.cwd p sl → .up ∈ p.components ∨ EndsInLink w.files w.cwd p)) := by
  obtain ⟨l, hspells, habove⟩ := outputLocation_holds hw hcwd hs hp
  have hsource := spells_pathOf (hw.isName_of_mem (by rw [hs]; rfl))
  have hiff := hsource.startsWith_iff hspells
  rw [outputFor_eq hp]
  by_cases hstarts : (pathOf sl).startsWith p = true
  · rw [if_pos hstarts]
    exact .inl ⟨rfl, holds_of_above hw hspells hs (hiff.1 hstarts)⟩
  · rw [if_neg hstarts]
    refine .inr ⟨rfl, fun h => ?_⟩
    by_contra hc
    obtain ⟨hup, hlink⟩ := not_or.1 hc
    exact hstarts (hiff.2 (habove hup hlink h))

/-- Nothing but an empty source directory. -/
def bareSource : World := ⟨⟨[(["src"], .directory)]⟩, [], []⟩

theorem outputFor_dots_resolved : outputFor ⟨"src/../src"⟩ (pathOf ["src"]) bareSource =
    .error (.settings (.outputHoldsSource ⟨"src/../src"⟩)) bareSource := by
  have hat : bareSource.files.at? ["src"] = some .directory := by decide +kernel
  have hp : outputLocation bareSource.files bareSource.cwd ⟨"src/../src"⟩ = .ok ⟨"/src"⟩ := by decide +kernel
  rcases outputFor_cases (by decide +kernel) (by decide) hat hp with ⟨h, -⟩ | ⟨-, h⟩
  · exact h
  · rcases h ⟨bareSource.files, .found ["src"] .directory, .inl rfl, by decide +kernel, List.prefix_rfl⟩ with
      hup | ⟨loc, target, hlink⟩
    · exact absurd hup (by decide +kernel)
    · cases hlink

/-- Double dots at the end are not resolved, and what is above the source is accepted. -/
theorem outputFor_accepts_above :
    outputFor ⟨"src/.."⟩ (pathOf ["src"]) bareSource = .ok ⟨"/src/.."⟩ bareSource ∧
    Holds bareSource.files bareSource.cwd ⟨"/src/.."⟩ ["src"] := by
  constructor
  · rw [outputFor_eq (p := ⟨"/src/.."⟩) (by decide +kernel)]
    exact if_neg (by decide +kernel)
  · exact ⟨bareSource.files, .found [] .directory, .inl rfl, by decide +kernel, List.nil_prefix⟩

end SiteTree.Build
