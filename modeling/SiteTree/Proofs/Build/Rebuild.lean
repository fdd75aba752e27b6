import SiteTree.Proofs.Build.Own

/-!
Clean builds read nothing but the sources: what earlier builds have left at the output or beside it does not show.
-/

namespace SiteTree.Build

open SiteTree.Action FileSystem SiteTree.Path Walk

variable {options : Options} {plan : Plan} {report : Report} {start : FileSystem} {w w' w₁ : World} {l : List String}
  {loc x y : Location} {name : String} {p s : Path}

/-- The sources, the ignore file among them, lie apart from the output and from its staging directory. These are
directories if they are there, and there are no links in the source tree but in them. -/
structure SourcesApart (options : Options) (output : Path) (w : World) : Prop where
  wellFormed : w.files.WellFormed
  cwd : ∀ s ∈ w.cwd, IsName s
  located : outputLocation w.files w.cwd options.outputRoot = .ok output
  published : w.files.at? (settled output) = none ∨ w.files.at? (settled output) = some .directory
  staged : w.files.at? (settled (stagingPath output)) = none ∨ w.files.at? (settled (stagingPath output)) = some .directory
  outside : ∀ s, w.files.canonical w.cwd options.sourceRoot = .ok s → Outside output (settled s ++ [Ignore.fileName])
  linkless : ∀ s x target, w.files.canonical w.cwd options.sourceRoot = .ok s → settled s <+: x → Outside output x →
    w.files.at? x ≠ some (.link target)
  names : ExpandsToNames options w

/-- The source of a tree in which the sources lie apart. -/
structure SourceAt (output : Path) (w : World) (s : Path) (loc : Location) : Prop extends Denotes w.files s loc where
  outside : Outside output loc
  ignoreOutside : Outside output (loc ++ [Ignore.fileName])
  linkless : ∀ x target, loc <+: x → Outside output x → w.files.at? x ≠ some (.link target)

theorem SourcesApart.sourceAt (h : SourcesApart options p w) (hs : w.files.canonical w.cwd options.sourceRoot = .ok s) :
    ∃ loc, SourceAt p w s loc := by
  obtain ⟨loc, hden⟩ := canonical_denotes h.wellFormed hs
  have hignore := h.outside _ hs
  have hfree := fun x target => h.linkless _ x target hs
  rw [hden.settled] at hignore hfree
  refine ⟨loc, hden, ?_, hignore, hfree⟩
  by_contra hc
  exact own_below _ _ hc hignore

/-- Where a directory and an entry of it are the same, so is the text of the entry. -/
theorem readText_same {fs fs' : FileSystem} {cwd : Location} (hw : fs.WellFormed) (hd : fs.at? loc = some .directory)
    (hd' : fs'.at? loc = some .directory) (hw' : fs'.WellFormed) (hn : IsName name)
    (hsame : fs'.at? (loc ++ [name]) = fs.at? (loc ++ [name])) (hlink : ∀ target, fs.at? (loc ++ [name]) ≠ some (.link target)) :
    fs'.readText cwd ((pathOf loc).child name) = fs.readText cwd ((pathOf loc).child name) := by
  have hnames := hw.isName_of_mem (show (fs.at? loc).isSome by rw [hd]; rfl)
  have hall : ∀ t ∈ loc ++ [name], IsName t := by simpa [or_imp, forall_and] using ⟨hnames, hn⟩
  have hspells := ((spells_pathOf hnames).child hn).1
  refine readText_congr (I := fun x => fs'.at? x ≠ fs.at? x) (fun x hx => not_not.1 hx)
    (avoids_unlinked hspells (fun t ht => (hall t ht).isStep) (fun y target hy hat => ?_) (fun y hy => ?_) cwd)
  · rcases List.prefix_concat_iff.1 hy with rfl | hy
    · exact hlink target hat
    · cases hat.symm.trans (hw.directory_above hd hy)
  · rw [not_not]
    rcases List.prefix_concat_iff.1 hy with rfl | hy
    · exact hsame
    · rw [hw.directory_above hd hy, hw'.directory_above hd' hy]

/-- In trees that are the same off the build's own directories, both builds come to the same plan. -/
theorem SourcesApart.validate_alike (h : SourcesApart options p w) (h' : SourcesApart options p w')
    (hcanonical : w'.files.canonical w'.cwd options.sourceRoot = w.files.canonical w.cwd options.sourceRoot)
    (hcwd : w'.cwd = w.cwd)
    (hsame : ∀ s loc, SourceAt p w s loc → w.files.canonical w.cwd options.sourceRoot = .ok s →
      w'.files.at? loc = w.files.at? loc ∧
      w'.files.at? (loc ++ [Ignore.fileName]) = w.files.at? (loc ++ [Ignore.fileName])) :
    EndAlike True (fun _ _ => True) Eq (validate options w) (validate options w') := by
  refine Build.validate_alike hcanonical (h'.located.trans h.located.symm) (fun s hs => ?_) fun s p' hs hd hp' hstarts => ?_
  · obtain ⟨loc, hat⟩ := h.sourceAt hs
    obtain ⟨loc', hat'⟩ := h'.sourceAt (hcanonical.trans hs)
    obtain rfl : loc' = loc := hat'.settled.symm.trans hat.settled
    rw [Bool.eq_iff_iff, hat.isDirectory, hat'.isDirectory, (hsame s loc' hat hs).1]
  · obtain ⟨loc, hat⟩ := h.sourceAt hs
    obtain ⟨hdir, hfile⟩ := hsame s loc hat hs
    refine filterFor_alike ?_ _
    have hd₁ := (hat.isDirectory _).1 hd
    rw [hcwd, hat.eq]
    exact readText_same h.wellFormed hd₁ (hdir.trans hd₁) h'.wellFormed (by decide) hfile
      fun target => hat.linkless _ target (List.prefix_append _ _) hat.ignoreOutside

/-- The build itself looks at nothing in which the trees differ. -/
theorem SourcesApart.build_alike (h : SourcesApart options p w) (h' : SourcesApart options p w')
    (hclean : options.clean = true) (hlinks : options.links = []) (hup : .up ∉ options.outputRoot.components)
    (hcwd : w'.cwd = w.cwd)
    (hcanonical : w'.files.canonical w'.cwd options.sourceRoot = w.files.canonical w.cwd options.sourceRoot)
    (hsame : SameOff (fun x => ¬ Outside p x) w.files w'.files) :
    EndAlike True (fun w₂ w₂' => ∀ cwd, treeAt w₂'.files cwd p = treeAt w₂.files cwd p) Eq
      (build options w) (build options w') := by
  replace hsame : ∀ x, Outside p x → w'.files.at? x = w.files.at? x := fun x hx => hsame x (not_not.2 hx)
  have hv := h.validate_alike h' hcanonical hcwd fun s loc hat _ => ⟨hsame loc hat.outside, hsame _ hat.ignoreOutside⟩
  refine build_alike_of_plan hv fun plan w₁ w₁' hrun hrun' => ?_
  obtain ⟨-, hs, hlocation, -⟩ := validate_ok hrun
  obtain rfl : p = plan.output := Except.ok.inj (h.located.symm.trans hlocation)
  obtain ⟨l, name, hp⟩ := placed_of_validate h.wellFormed h.cwd hup hrun
  obtain ⟨l', name', hp'⟩ := placed_of_validate h'.wellFormed h'.cwd hup hrun'
  obtain ⟨rfl, rfl⟩ := hp.unique hp'
  obtain ⟨hout, hstaging⟩ :
      settled plan.output = l' ++ [name'] ∧ settled (stagingPath plan.output) = l' ++ [hiddenName name'] := hp.settled_eq
  obtain ⟨loc, hat⟩ := h.sourceAt hs
  have hd := (hat.isDirectory _).1 (validate_source hrun)
  have hd' := (hsame loc hat.outside).trans hd
  have hfree' : ∀ x target, loc <+: x → Outside plan.output x → w'.files.at? x ≠ some (.link target) := by
    intro x target hx hout
    rw [hsame x hout]
    exact hat.linkless x target hx hout
  by_cases hl : w.files.at? l' = some .directory
  · have hl' := (hsame l' (hp.outside_above List.prefix_rfl)).trans hl
    have ho := h.wellFormed.openTo hl
    have ho' := h'.wellFormed.openTo hl'
    exact build_alike_open h.wellFormed h'.wellFormed hcwd hclean hlinks h.names h'.names hrun hrun' hp hp' hat.spells hd hd'
      (ho.child (hout ▸ h.published)) (ho.child (hstaging ▸ h.staged)) (ho'.child (hout ▸ h'.published))
      (ho'.child (hstaging ▸ h'.staged)) hat.outside hat.linkless hfree' fun x hx => .inr (hsame x hx)
  · -- Where the parent is no directory, there is nothing in the places that may differ.
    have hempty : ∀ {fs : FileSystem}, fs.WellFormed → fs.at? l' ≠ some .directory → ∀ x, ¬ Outside plan.output x →
        fs.at? x = none := by
      intro fs hw hl x hx
      rw [not_outside, hout, hstaging] at hx
      rcases hx with hx | hx
      · exact hw.at?_below hl ((List.prefix_append _ _).trans hx) fun he => not_append_isPrefix (he ▸ hx)
      · exact hw.at?_below hl ((List.prefix_append _ _).trans hx) fun he => not_append_isPrefix (he ▸ hx)
    have hl' : w'.files.at? l' ≠ some .directory := by rwa [hsame l' (hp.outside_above List.prefix_rfl)]
    have hall : ∀ x, w'.files.at? x = w.files.at? x := by
      intro x
      by_cases hx : Outside plan.output x
      · exact hsame x hx
      · rw [hempty h.wellFormed hl x hx, hempty h'.wellFormed hl' x hx]
    refine build_alike_unreached h.wellFormed h'.wellFormed hcwd hclean hlinks h.names h'.names hrun hrun' hp hp' hat.spells
      hd hd' hl (fun x target hx hlink => ?_) hall
    by_cases hout : Outside plan.output x
    · exact hat.linkless x target hx hout hlink
    · rw [hempty h.wellFormed hl x hout] at hlink
      cases hlink

namespace Released

variable {dir : Location} {w₂ : World} (hr : Released plan start dir name dir w₁ w₂ w')
  (hp : Placed start plan.output dir name)

include hr hp

theorem kept_outside (hx : Outside plan.output x) : w'.files.at? x = w₂.files.at? x := by
  obtain ⟨hout, hstaging⟩ :
      settled plan.output = dir ++ [name] ∧ settled (stagingPath plan.output) = dir ++ [hiddenName name] := hp.settled_eq
  rw [Outside, hout, hstaging] at hx
  exact hr.kept x hx.2 hx.1

theorem openTo : start.OpenTo dir := by
  intro y hy
  have hd := hr.wellFormed.directory_above hr.reaches.directory hy
  rw [hr.kept_outside hp (hp.outside_above hy)] at hd
  rcases hr.staged.grown y (not_append_isPrefix_of_isPrefix hy) with he | ⟨he, -⟩
  · exact .inr (he.symm.trans hd)
  · exact .inl he

/-- Off its own directories a build makes the levels above its output, if they are not there, and nothing else. -/
theorem same_outside (hw : w₁.files.WellFormed) (hfiles : w₁.files = start)
    (hos : start.OpenTo (dir ++ [hiddenName name])) (hx : Outside plan.output x) :
    x <+: dir ∨ w'.files.at? x = start.at? x := by
  have hstaging : settled (stagingPath plan.output) = dir ++ [hiddenName name] := hp.settled_eq.2
  have hkept := hr.kept_outside hp hx
  have ho := hr.openTo hp
  subst hfiles
  obtain ⟨w₃, hprep, -, -, hat⟩ := prepare_open hw hp ho hos.not_file
  cases hr.prepared.symm.trans hprep
  rw [hkept, hat]
  by_cases hpre : x <+: dir ++ [hiddenName name]
  · refine .inl ((List.prefix_concat_iff.1 hpre).resolve_left ?_)
    rintro rfl
    exact hx.2 (hstaging ▸ List.prefix_rfl)
  · rw [if_neg hpre, if_neg (hstaging ▸ hx.2)]
    exact .inr rfl

end Released

/-- A build may make the levels above its output. If the paths still lead where they did, a second build in the tree that
the first one has left gives the same again. -/
theorem SourcesApart.rebuild (h : SourcesApart options p w) (hclean : options.clean = true) (hlinks : options.links = [])
    (hup : .up ∉ options.outputRoot.components) (hbuild : build options w = .ok report w₁)
    (hlocated : outputLocation w₁.files w.cwd options.outputRoot = .ok p)
    (hcanonical : w₁.files.canonical w.cwd options.sourceRoot = w.files.canonical w.cwd options.sourceRoot)
    (hignore : ∀ s, w.files.canonical w.cwd options.sourceRoot = .ok s → ¬ settled s ++ [Ignore.fileName] <+: settled p)
    (hnames : ExpandsToNames options { w with files := w₁.files }) :
    ∃ w₂, build options { w with files := w₁.files } = .ok report w₂ ∧
      ∀ cwd, treeAt w₂.files cwd p = treeAt w₁.files cwd p := by
  obtain ⟨plan, wv, hrun, -⟩ := bind_eq_ok (a := validate options) hbuild
  obtain ⟨hfiles, hs, hlocation, -⟩ := validate_ok hrun
  obtain rfl : p = plan.output := Except.ok.inj (h.located.symm.trans hlocation)
  obtain ⟨l, name, hp⟩ := placed_of_validate h.wellFormed h.cwd hup hrun
  obtain ⟨dir, w₂, hr⟩ := build_released h.wellFormed hclean hlinks hrun hp h.names hbuild
  have hp₁ : Placed w₁.files plan.output l name := by
    obtain ⟨l', name', hp'⟩ := placed_of_location hr.wellFormed h.cwd hup hlocated fun hnil => by
      simpa using hp.spells.stretches.symm.trans hnil.stretches
    obtain ⟨rfl, rfl⟩ := hp.unique hp'
    exact hp'
  obtain ⟨rfl, -⟩ := hp₁.ready dir hr.reaches
  obtain ⟨hout, hstaging⟩ :
      settled plan.output = dir ++ [name] ∧ settled (stagingPath plan.output) = dir ++ [hiddenName name] := hp.settled_eq
  have ho := hr.openTo hp
  have hos := ho.child (hstaging ▸ h.staged)
  have ho₁ := hr.wellFormed.openTo hr.reaches.directory
  have hsame : ∀ x, Outside plan.output x → x <+: dir ∨ w₁.files.at? x = w.files.at? x := fun x hx =>
    hr.same_outside hp (hfiles ▸ h.wellFormed) hfiles hos hx
  have habove : ∀ x, x <+: dir → w₁.files.at? x = some .directory := fun x hx =>
    hr.wellFormed.directory_above hr.reaches.directory hx
  obtain ⟨loc, hat⟩ := h.sourceAt hs
  have hd := (hat.isDirectory _).1 (validate_source hrun)
  have hd₁ : w₁.files.at? loc = some .directory := by
    rcases hsame loc hat.outside with hpre | he
    · exact habove loc hpre
    · exact he.trans hd
  have hfree₁ : ∀ x target, loc <+: x → Outside plan.output x → w₁.files.at? x ≠ some (.link target) := by
    intro x target hx hox
    rcases hsame x hox with hpre | he
    · rw [habove x hpre]
      exact nofun
    · rw [he]
      exact hat.linkless x target hx hox
  have h₁ : SourcesApart options plan.output { w with files := w₁.files } := by
    refine ⟨hr.wellFormed, h.cwd, hlocated, .inr (hout ▸ hr.directory), .inl (hstaging ▸ hr.gone),
      fun s hs => h.outside s (hcanonical.symm.trans hs), fun s x target hs' => ?_, hnames⟩
    obtain rfl : plan.source = s := Except.ok.inj (hs.symm.trans (hcanonical.symm.trans hs'))
    rw [hat.settled]
    exact hfree₁ x target
  have hv := h.validate_alike h₁ hcanonical rfl fun s loc' hat' hs' => by
    obtain rfl : plan.source = s := Except.ok.inj (hs.symm.trans hs')
    obtain rfl : loc' = loc := hat'.settled.symm.trans hat.settled
    refine ⟨hd₁.trans hd.symm, (hsame _ hat.ignoreOutside).resolve_left fun hpre => hignore _ hs ?_⟩
    rw [hat.settled, hout]
    exact hpre.trans (List.prefix_append _ _)
  have hagain := build_alike_of_plan hv fun plan' w₃ w₃' hrun' hrun₁ => by
    cases hrun.symm.trans hrun'
    exact build_alike_open h.wellFormed hr.wellFormed rfl hclean hlinks h.names hnames hrun hrun₁ hp hp₁ hat.spells hd hd₁
      (ho.child (hout ▸ h.published)) hos (ho₁.child (.inr hr.directory)) (ho₁.child (.inl hr.gone)) hat.outside hat.linkless
      hfree₁ hsame
  exact hagain.result hbuild

/-- A clean build that only copies does not depend on what is in its own directories, if the source and the output lead to
the same places and the sources lie apart. So it gives the same again as long as the paths still lead there. -/
theorem clean_build_depends_on_sources (hclean : options.clean = true) (hlinks : options.links = [])
    (hup : .up ∉ options.outputRoot.components) (h : SourcesApart options p w) :
    (∀ w', SourcesApart options p w' → w'.cwd = w.cwd →
      w'.files.canonical w'.cwd options.sourceRoot = w.files.canonical w.cwd options.sourceRoot →
      SameOff (fun x => ¬ Outside p x) w.files w'.files →
      EndAlike True (fun w₂ w₂' => ∀ cwd, treeAt w₂'.files cwd p = treeAt w₂.files cwd p) Eq
        (build options w) (build options w')) ∧
    ∀ report w₁, build options w = .ok report w₁ → outputLocation w₁.files w.cwd options.outputRoot = .ok p →
      w₁.files.canonical w.cwd options.sourceRoot = w.files.canonical w.cwd options.sourceRoot →
      (∀ s, w.files.canonical w.cwd options.sourceRoot = .ok s → ¬ settled s ++ [Ignore.fileName] <+: settled p) →
      ExpandsToNames options { w with files := w₁.files } →
      ∃ w₂, build options { w with files := w₁.files } = .ok report w₂ ∧
        ∀ cwd, treeAt w₂.files cwd p = treeAt w₁.files cwd p :=
  ⟨fun _ h' hcwd hcanonical hsame => h.build_alike h' hclean hlinks hup hcwd hcanonical hsame,
    fun _ _ hbuild hlocated hcanonical hignore hnames =>
      h.rebuild hclean hlinks hup hbuild hlocated hcanonical hignore hnames⟩

theorem sourcesApart_of_linkFree (hw : w.files.WellFormed) (hcwd : ∀ s ∈ w.cwd, IsName s) (hfree : w.files.LinkFree [])
    (hlocated : outputLocation w.files w.cwd options.outputRoot = .ok p)
    (hs : w.files.canonical w.cwd options.sourceRoot = .ok s) (hout : Outside p (settled s ++ [Ignore.fileName]))
    (hroots : ∀ x ∈ [settled p, settled (stagingPath p)], w.files.at? x = none ∨ w.files.at? x = some .directory)
    (hnames : ExpandsToNames options w) : SourcesApart options p w := by
  refine ⟨hw, hcwd, hlocated, hroots _ (by simp), hroots _ (by simp), fun s' hs' => ?_, fun _ x target _ _ _ =>
    hfree x target List.nil_prefix, hnames⟩
  cases hs.symm.trans hs'
  exact hout

/-- Copies what is in `src` to a place in it, and renames the assets. -/
def stampInto : Options := { copyInto with hash := true }

/-- The tree of `heldOutput` before its first build, but for a staging directory that has been left. -/
def unbuilt : World :=
  ⟨⟨[(["src", "a.txt"], .file "x".toUTF8), (["src", ".out.staging", "b.txt"], .file "y".toUTF8),
    (["src", ".out.staging"], .directory), (["src"], .directory)]⟩, [], []⟩

theorem heldOutput_rebuilt :
    EndAlike True (fun w₂ w₂' => ∀ cwd, treeAt w₂'.files cwd ⟨"/src/out"⟩ = treeAt w₂.files cwd ⟨"/src/out"⟩) Eq
      (build stampInto heldOutput) (build stampInto unbuilt) ∧
    ∃ report w₁ w₂, build stampInto heldOutput = .ok report w₁ ∧
      build stampInto { heldOutput with files := w₁.files } = .ok report w₂ ∧
      ∀ cwd, treeAt w₂.files cwd ⟨"/src/out"⟩ = treeAt w₁.files cwd ⟨"/src/out"⟩ := by
  have hheld : SourcesApart stampInto ⟨"/src/out"⟩ heldOutput :=
    sourcesApart_of_linkFree (s := ⟨"/src"⟩) (by decide +kernel) (by decide) (by decide +kernel) (by decide +kernel)
      (by decide +kernel) (by decide +kernel) (by decide +kernel) (ExpandsPlain.names (by decide +kernel))
  have hunbuilt : SourcesApart stampInto ⟨"/src/out"⟩ unbuilt :=
    sourcesApart_of_linkFree (s := ⟨"/src"⟩) (by decide +kernel) (by decide) (by decide +kernel) (by decide +kernel)
      (by decide +kernel) (by decide +kernel) (by decide +kernel) (ExpandsPlain.names (by decide +kernel))
  obtain ⟨hsame, hagain⟩ := clean_build_depends_on_sources rfl rfl (by decide +kernel) hheld
  refine ⟨hsame unbuilt hunbuilt rfl (by decide +kernel) (by decide +kernel), ?_⟩
  obtain ⟨report, w₁, hbuild, hafter⟩ := yields_iff.1 (show yields (build stampInto) heldOutput (fun _ w₁ =>
    decide (outputLocation w₁.files heldOutput.cwd stampInto.outputRoot = .ok ⟨"/src/out"⟩ ∧
      w₁.files.canonical heldOutput.cwd stampInto.sourceRoot =
        heldOutput.files.canonical heldOutput.cwd stampInto.sourceRoot ∧
      ExpandsPlain stampInto { heldOutput with files := w₁.files })) = true by decide +kernel)
  obtain ⟨hlocated, hcanonical, hplain⟩ := of_decide_eq_true hafter
  obtain ⟨w₂, hbuild₂, htree⟩ := hagain report w₁ hbuild hlocated hcanonical (fun s hs => by
    have hsrc : heldOutput.files.canonical heldOutput.cwd stampInto.sourceRoot = .ok ⟨"/src"⟩ := by decide +kernel
    cases hsrc.symm.trans hs
    decide +kernel) hplain.names
  exact ⟨report, w₁, w₂, hbuild, hbuild₂, htree⟩

/-- One file to be copied, and an empty directory where the output may go. -/
def emptySite : World := ⟨⟨[(["src", "a.txt"], .file "x".toUTF8), (["src"], .directory), (["site"], .directory)]⟩, [], []⟩

def noSite : World := ⟨⟨[(["src", "a.txt"], .file "x".toUTF8), (["src"], .directory)]⟩, [], []⟩

/-- A directory for the output, and a link to it. -/
def linkedSite : World :=
  ⟨⟨[(["src", "a.txt"], .file "x".toUTF8), (["src"], .directory), (["site"], .directory), (["lnk"], .link "site")]⟩, [], []⟩

def throughSite : Options := plainCopy "site/../src" "site" .empty

def ontoIgnoreFile : Options := plainCopy "src" "src/.statictronignore" .empty

def byLink : Options := plainCopy "src" "lnk/new/out" .empty

/-- Without the output there is no way through it to the source. -/
theorem throughSite_shows : SameOff (fun x => ¬ Outside ⟨"/site"⟩ x) emptySite.files noSite.files ∧
    Outside ⟨"/site"⟩ ["src"] ∧ ExpandsToNames throughSite emptySite ∧ ExpandsToNames throughSite noSite ∧
    succeeds (build throughSite) emptySite = true ∧ succeeds (build throughSite) noSite = false :=
  ⟨by decide +kernel, by decide +kernel, ExpandsPlain.names (by decide +kernel), ExpandsPlain.names (by decide +kernel),
    by decide +kernel, by decide +kernel⟩

/-- An output that stands where the ignore file is looked for is read by the next build. -/
theorem ontoIgnoreFile_shows : ∃ report w₁, build ontoIgnoreFile noSite = .ok report w₁ ∧
    SameOff (fun x => ¬ Outside report.outputRoot x) noSite.files w₁.files ∧ Outside report.outputRoot ["src"] ∧
    ExpandsToNames ontoIgnoreFile noSite ∧ succeeds (build ontoIgnoreFile) { noSite with files := w₁.files } = false := by
  obtain ⟨report, w₁, hbuild, hafter⟩ := yields_iff.1 (show yields (build ontoIgnoreFile) noSite (fun report w₁ =>
    decide (SameOff (fun x => ¬ Outside report.outputRoot x) noSite.files w₁.files ∧ Outside report.outputRoot ["src"]) &&
      !succeeds (build ontoIgnoreFile) { noSite with files := w₁.files }) = true by decide +kernel)
  rw [Bool.and_eq_true, Bool.not_eq_true'] at hafter
  obtain ⟨hsame, hout⟩ := of_decide_eq_true hafter.1
  exact ⟨report, w₁, hbuild, hsame, hout, ExpandsPlain.names (by decide +kernel), hafter.2⟩

/-- Once the levels above it are there, the output is reported without the link. -/
theorem byLink_shows : ExpandsToNames byLink linkedSite ∧ ∃ report w₁ report' w₂, build byLink linkedSite = .ok report w₁ ∧
    build byLink { linkedSite with files := w₁.files } = .ok report' w₂ ∧ report'.outputRoot ≠ report.outputRoot := by
  obtain ⟨report, w₁, hbuild, hafter⟩ := yields_iff.1 (show yields (build byLink) linkedSite (fun report w₁ =>
    yields (build byLink) { linkedSite with files := w₁.files } fun report' _ =>
      decide (report'.outputRoot.text ≠ report.outputRoot.text)) = true by decide +kernel)
  obtain ⟨report', w₂, hbuild', hne⟩ := yields_iff.1 hafter
  exact ⟨ExpandsPlain.names (by decide +kernel), report, w₁, report', w₂, hbuild, hbuild', fun he =>
    of_decide_eq_true hne (by rw [he])⟩

/-- What a clean build that only copies comes to does show what earlier builds have left, if the source is looked up
through it, if it stands where the ignore file is looked for, or if it makes the output's own path lead elsewhere. -/
theorem clean_build_shows_own :
    (SameOff (fun x => ¬ Outside ⟨"/site"⟩ x) emptySite.files noSite.files ∧
      Outside ⟨"/site"⟩ ["src"] ∧ ExpandsToNames throughSite emptySite ∧ ExpandsToNames throughSite noSite ∧
      succeeds (build throughSite) emptySite = true ∧ succeeds (build throughSite) noSite = false) ∧
    (∃ report w₁, build ontoIgnoreFile noSite = .ok report w₁ ∧
      SameOff (fun x => ¬ Outside report.outputRoot x) noSite.files w₁.files ∧ Outside report.outputRoot ["src"] ∧
      ExpandsToNames ontoIgnoreFile noSite ∧ succeeds (build ontoIgnoreFile) { noSite with files := w₁.files } = false) ∧
    ExpandsToNames byLink linkedSite ∧ ∃ report w₁ report' w₂, build byLink linkedSite = .ok report w₁ ∧
      build byLink { linkedSite with files := w₁.files } = .ok report' w₂ ∧ report'.outputRoot ≠ report.outputRoot :=
  ⟨throughSite_shows, ontoIgnoreFile_shows, byLink_shows⟩

end SiteTree.Build
