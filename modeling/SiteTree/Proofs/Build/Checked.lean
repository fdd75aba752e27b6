import SiteTree.Proofs.Alike
import SiteTree.Proofs.Build.Staging
import SiteTree.Proofs.FileSystem.Way

/-!
Checking the options of a build in two worlds. What comes of it is decided by where the source and the output are, and
by the filter.
-/

namespace SiteTree.Build

open SiteTree.Action FileSystem SiteTree.Path

variable {P : Prop} {T : World → World → Prop} {options : Options} {plan : Plan} {ignore : Ignore} {patterns : List String}
  {w w' w₁ : World} {loc : Location} {node : FileNode} {cwd : Location} {fs : FileSystem} {source output p : Path}

/-- A file that is missing is told of. -/
theorem ownPatterns_eq (path : Path) (w : World) : ownPatterns path w = match w.files.readText w.cwd path with
    | .ok content => .ok (Ignore.patternsOf content) w
    | .error cause =>
      if cause = .missing then
        .ok [] { w with events := .record .debug .ignore (Ignore.fileName ++ " does not exist") :: w.events }
      else .error (.read path cause) w := by
  rw [ownPatterns, get_bind]
  cases w.files.readText w.cwd path with
  | ok content => rfl
  | error cause =>
      by_cases hc : cause = .missing
      · subst hc
        rfl
      · simp only [hc, if_false]
        rfl

theorem ownPatterns_tells {path : Path} {own : List String} (h : ownPatterns path w = .ok own w') :
    ∃ events, w' = { w with events := events } := by
  rw [ownPatterns_eq] at h
  split at h
  · cases h
    exact ⟨_, rfl⟩
  · split at h
    · cases h
      exact ⟨_, rfl⟩
    · cases h

theorem filterFor_tells (h : filterFor source patterns w = .ok ignore w') : ∃ events, w' = { w with events := events } := by
  obtain ⟨own, w₁, hown, hfilter⟩ := bind_eq_ok h
  obtain ⟨-, rfl⟩ := ofExcept_ok hfilter
  exact ownPatterns_tells hown

theorem validate_tells (h : validate options w = .ok plan w') : ∃ events, w' = { w with events := events } := by
  obtain ⟨source, w₁, hs, h₁⟩ := bind_eq_ok h
  obtain ⟨rfl, -⟩ := sourceFor_ok hs
  obtain ⟨output, w₂, ho, h₂⟩ := bind_eq_ok h₁
  obtain ⟨rfl, -⟩ := outputFor_ok ho
  obtain ⟨ignore, w₃, hi, h₃⟩ := bind_eq_ok h₂
  cases h₃
  exact filterFor_tells hi

theorem validate_filter (h : validate options w = .ok plan w') :
    ∃ w₁, filterFor plan.source options.ignore w = .ok plan.ignore w₁ := by
  obtain ⟨source, w₁, hs, h₁⟩ := bind_eq_ok h
  obtain ⟨rfl, -⟩ := sourceFor_ok hs
  obtain ⟨output, w₂, ho, h₂⟩ := bind_eq_ok h₁
  obtain ⟨rfl, -⟩ := outputFor_ok ho
  obtain ⟨ignore, w₃, hi, h₃⟩ := bind_eq_ok h₂
  cases h₃
  exact ⟨_, hi⟩

theorem filterFor_alike (h : w'.files.readText w'.cwd (source.child Ignore.fileName) =
    w.files.readText w.cwd (source.child Ignore.fileName)) (patterns : List String) :
    EndAlike P (fun _ _ => True) Eq (filterFor source patterns w) (filterFor source patterns w') := by
  have hown : EndAlike P (fun _ _ => True) Eq (ownPatterns (source.child Ignore.fileName) w)
      (ownPatterns (source.child Ignore.fileName) w') := by
    rw [ownPatterns_eq, ownPatterns_eq, h]
    split
    · exact .ok rfl trivial
    · split
      · exact .ok rfl trivial
      · exact .error fun _ => rfl
  refine hown.bind fun own _ _ _ _ _ he _ => ?_
  subst he
  exact .ofExcept trivial

/-- The filter is the same wherever the ignore file reads the same. -/
theorem filterFor_of_text (h : filterFor source patterns w = .ok ignore w₁)
    (htext : w'.files.readText w'.cwd (source.child Ignore.fileName) = w.files.readText w.cwd (source.child Ignore.fileName)) :
    ∃ w₂, filterFor source patterns w' = .ok ignore w₂ := by
  have halike : EndAlike True (fun _ _ => True) Eq (filterFor source patterns w) (filterFor source patterns w') :=
    filterFor_alike htext patterns
  obtain ⟨w₂, hfilter, -⟩ := halike.result h
  exact ⟨w₂, hfilter⟩

theorem sourceFor_alike (hcanonical : w'.files.canonical w'.cwd source = w.files.canonical w.cwd source)
    (hdirectory : ∀ s, w.files.canonical w.cwd source = .ok s → w'.files.isDirectory w'.cwd s = w.files.isDirectory w.cwd s) :
    EndAlike P (fun _ _ => True) Eq (sourceFor source w) (sourceFor source w') := by
  have hlook : EndAlike P (fun w₁ w₁' => w₁ = w ∧ w₁' = w') Eq
      (look (fun fs cwd => fs.canonical cwd source) (.read source) w)
      (look (fun fs cwd => fs.canonical cwd source) (.read source) w') :=
    look_alike (.of_eq hcanonical) (fun _ => rfl) ⟨rfl, rfl⟩
  refine hlook.bind fun s _ w₁ w₁' hs _ he ⟨h₁, h₁'⟩ => ?_
  subst he h₁ h₁'
  show EndAlike P _ Eq ((if w₁.files.isDirectory w₁.cwd s then _ else _ : Action Path) w₁)
    ((if w₁'.files.isDirectory w₁'.cwd s then _ else _ : Action Path) w₁')
  rw [hdirectory s (look_ok hs).2]
  split
  · exact .ok rfl trivial
  · exact .error fun _ => rfl

theorem outputFor_alike (hlocation : outputLocation w'.files w'.cwd output = outputLocation w.files w.cwd output) :
    EndAlike P (fun _ _ => True) Eq (outputFor output source w) (outputFor output source w') := by
  have hlook : EndAlike P (fun _ _ => True) Eq (look (fun fs cwd => outputLocation fs cwd output) .system w)
      (look (fun fs cwd => outputLocation fs cwd output) .system w') := look_alike (.of_eq hlocation) (fun _ => rfl) trivial
  refine hlook.bind fun p _ w₁ w₁' _ _ he _ => ?_
  subst he
  show EndAlike P _ Eq ((if source.startsWith p then _ else _ : Action Path) w₁)
    ((if source.startsWith p then _ else _ : Action Path) w₁')
  split
  · exact .error fun _ => rfl
  · exact .ok rfl trivial

/-- If the source, the output and the filter are the same, then so is the plan. -/
theorem validate_alike
    (hcanonical : w'.files.canonical w'.cwd options.sourceRoot = w.files.canonical w.cwd options.sourceRoot)
    (hlocation : outputLocation w'.files w'.cwd options.outputRoot = outputLocation w.files w.cwd options.outputRoot)
    (hdirectory : ∀ s, w.files.canonical w.cwd options.sourceRoot = .ok s →
      w'.files.isDirectory w'.cwd s = w.files.isDirectory w.cwd s)
    (hfilter : ∀ s p, w.files.canonical w.cwd options.sourceRoot = .ok s → w.files.isDirectory w.cwd s = true →
      outputLocation w.files w.cwd options.outputRoot = .ok p → s.startsWith p = false →
      EndAlike P (fun _ _ => True) Eq (filterFor s options.ignore w) (filterFor s options.ignore w')) :
    EndAlike P (fun _ _ => True) Eq (validate options w) (validate options w') := by
  refine (sourceFor_alike hcanonical hdirectory).bind fun s _ w₁ w₁' hs hs' he _ => ?_
  subst he
  obtain ⟨rfl, hsource, hd⟩ := sourceFor_ok hs
  obtain ⟨rfl, -⟩ := sourceFor_ok hs'
  refine (outputFor_alike hlocation).bind fun p _ w₂ w₂' hp hp' he _ => ?_
  subst he
  obtain ⟨rfl, houtput, hstarts⟩ := outputFor_ok hp
  obtain ⟨rfl, -⟩ := outputFor_ok hp'
  refine (hfilter s p hsource hd houtput hstarts).bind fun ignore _ w₃ w₃' _ _ he _ => ?_
  subst he
  exact .ok rfl trivial

/-- Builds that come to the same plan, or to none for the same reason, are compared from there on. -/
theorem build_alike_of_plan {options' : Options} (hv : EndAlike P (fun _ _ => True) Eq (validate options w) (validate options' w'))
    (h : ∀ plan w₁ w₁', validate options w = .ok plan w₁ → validate options' w' = .ok plan w₁' →
      EndAlike P T Eq (build options w) (build options' w')) : EndAlike P T Eq (build options w) (build options' w') := by
  generalize hrun : validate options w = r at hv
  generalize hrun' : validate options' w' = r' at hv
  cases hv with
  | @ok plan _ w₁ w₁' he _ =>
      subst he
      exact h plan w₁ w₁' hrun hrun'
  | error he =>
      have hbuild : build options w = .error _ _ := bind_error hrun
      have hbuild' : build options' w' = .error _ _ := bind_error hrun'
      rw [hbuild, hbuild']
      exact .error he

end SiteTree.Build
