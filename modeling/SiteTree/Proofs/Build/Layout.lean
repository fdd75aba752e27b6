import SiteTree.Proofs.Build.Clean
import SiteTree.Proofs.Build.Sources
import SiteTree.Proofs.Walk.Setup

/-!
What a clean build leaves at its output: the files of the source tree, each where the layout has it.
-/

namespace SiteTree.Build

open SiteTree.Action FileSystem SiteTree.Path Walk

variable {options : Options} {plan : Plan} {report : Report} {start : FileSystem} {w w' w₁ : World} {l : List String}
  {loc : Location} {name : String} {n : Nat}

/-- The files of the source tree, as the tree is before a clean build. -/
def sourceFiles (plan : Plan) (options : Options) (fs : FileSystem) (n : Nat) : List Contribution :=
  contributions (plan.limits true) fs plan.source (settled plan.source) n [] [] options.scope

theorem settled_of_names {p : Path} (hp : p.Spells l) (hl : ∀ s ∈ l, IsName s) : settled p = l := by
  rw [settled_eq hp, settle_names hl, List.nil_append]

theorem Placed.names {fs : FileSystem} {p : Path} (h : Placed fs p l name) : ∀ s ∈ l, IsName s := fun _ hs =>
  h.spells.isName (List.mem_append_left _ hs) fun he => h.noUp (he ▸ hs)

theorem Placed.filter {fs : FileSystem} {p : Path} (h : Placed fs p l name) : l.filter (· ≠ "") = l :=
  List.filter_eq_self.2 fun s hs => by simpa using (h.names s hs).1

theorem Placed.names_append {fs : FileSystem} {p : Path} {s : String} (h : Placed fs p l name) (hs : IsName s) :
    ∀ t ∈ l ++ [s], IsName t := by
  simpa [or_imp, forall_and] using ⟨h.names, hs⟩

theorem Placed.settled_eq {fs : FileSystem} {p : Path} (h : Placed fs p l name) :
    settled p = l ++ [name] ∧ settled (stagingPath p) = l ++ [hiddenName name] :=
  ⟨settled_of_names h.spells (h.names_append h.isName), settled_of_names h.staging.1 (h.names_append h.hidden)⟩

theorem validate_source (h : validate options w = .ok plan w') : w.files.isDirectory w.cwd plan.source = true := by
  obtain ⟨source, w₁, hs, h₁⟩ := bind_eq_ok h
  obtain ⟨rfl, -, hd⟩ := sourceFor_ok hs
  obtain ⟨output, w₂, -, h₂⟩ := bind_eq_ok h₁
  obtain ⟨ignore, w₃, -, h₃⟩ := bind_eq_ok h₂
  cases h₃
  exact hd

/-- A canonical path, by its location. -/
structure Denotes (fs : FileSystem) (p : Path) (loc : Location) : Prop where
  eq : p = pathOf loc
  spells : p.Spells loc
  settled : settled p = loc
  isDirectory : ∀ cwd, fs.isDirectory cwd p = true ↔ fs.at? loc = some .directory

theorem canonical_denotes {fs : FileSystem} {cwd : Location} {p q : Path} (hw : fs.WellFormed)
    (h : fs.canonical cwd q = .ok p) : ∃ loc, Denotes fs p loc := by
  obtain ⟨loc, node, rfl, hat, hlink⟩ := canonical_ok hw h
  have hnames := hw.isName_of_mem (show (fs.at? loc).isSome by rw [hat]; rfl)
  have hspells := spells_pathOf hnames
  refine ⟨loc, rfl, hspells, settled_of_names hspells hnames, fun cwd => ?_⟩
  rw [isDirectory_iff hspells]
  refine ⟨fun ⟨dir, hr⟩ => ?_, fun hd => ⟨loc, hw.reaches_self hd⟩⟩
  rw [hat, (hw.directory_of_reaches hat hlink hr).1]

/-- The source is the directory that its path spells. -/
theorem source_of_validate (hw : w.files.WellFormed) (h : validate options w = .ok plan w') :
    plan.source.Spells (settled plan.source) ∧ w.files.at? (settled plan.source) = some .directory := by
  obtain ⟨-, hcanonical, -⟩ := validate_ok h
  obtain ⟨loc, hden⟩ := canonical_denotes hw hcanonical
  rw [hden.settled]
  exact ⟨hden.spells, (hden.isDirectory w.cwd).1 (validate_source h)⟩

/-- The walk does not enter a directory that it skips, by whatever way it comes to it. -/
theorem passedOver_of_skip {limits : Limits} {source p : Path} {m rel : List String} (hskip : p ∈ limits.skip)
    (hp : p.Spells m) (hm : ∀ s ∈ m, IsName s) (hs : source.Spells loc) (he : loc ++ rel = m) :
    passedOver limits source rel = true := by
  have hrel : ∀ s ∈ rel, IsName s := fun s hmem => hm s (he ▸ List.mem_append_right loc hmem)
  have halike : p.alike (source.descend rel) = true := Spells.alike (he ▸ hp) (hs.descend hrel)
  rw [passedOver, List.any_eq_true.2 ⟨p, hskip, halike⟩, Bool.true_or]

theorem passedOver_staging (hp : Placed start plan.output l name) (hs : plan.source.Spells loc) (rel : List String)
    (he : loc ++ rel = l ++ [hiddenName name]) : passedOver (plan.limits true) plan.source rel = true :=
  passedOver_of_skip (p := plan.staging) (by simp [Plan.limits]) hp.staging.1 (hp.names_append hp.hidden) hs he

theorem passedOver_output (hp : Placed start plan.output l name) (hs : plan.source.Spells loc) (clean : Bool)
    (rel : List String) (he : loc ++ rel = l ++ [name]) : passedOver (plan.limits clean) plan.source rel = true :=
  passedOver_of_skip (by cases clean <;> simp [Plan.limits]) hp.spells (hp.names_append hp.isName) hs he

/-- Without links the staging directory is where its names say. -/
theorem Staged.eq_of_linkFree {dir : Location} (hst : Staged start w.files l name dir)
    (hp : Placed start plan.output l name) (hfree : w.files.LinkFree []) : dir = l := by
  have hr : w.files.Reaches l dir := hst.reaches fun _ _ _ => rfl
  exact (Leads.location_settle hr hfree).trans (settle_names hp.names [])

theorem laid_staged (hst : Staged start w.files l name loc) : Laid (loc ++ [hiddenName name]) [] w.files :=
  Laid.start hst.confined.directory fun k hk => hst.empty _ (List.prefix_append _ _) (by simpa using hk)

section

variable (hp : Placed start plan.output l name) (hst : Staged start w.files l name l)
  (hs : plan.source.Spells loc)

/-- What the walk of a clean build starts from. -/
def stagedSetup (hfree : w.files.LinkFree []) (links : List LinkKind) : Setup :=
  ⟨plan.limits true, links, plan.source, loc, l ++ [hiddenName name], l ++ [hiddenName name], w.files, hs, hfree,
    hst.confined, hp.noUp_hidden, passedOver_staging hp hs⟩

variable (hd : start.at? loc = some .directory) (hoff : ¬ l ++ [hiddenName name] <+: loc)

include hd hoff

/-- What is kept of the files that are rendered into an empty staging directory. -/
theorem staged_holds (hw : start.WellFormed) {hfree : w.files.LinkFree []}
    {K : (stagedSetup hp hst hs hfree options.links).Keeping}
    (hfit : MeetsOnly K.fits (plan.limits true) maxNesting (plan.inner options) plan.source plan.staging w)
    (hstart : K.holds [] w.files)
    (hrun : render (plan.limits true) maxNesting (plan.inner options) plan.source plan.staging w = .ok () w')
    (hn : maxNesting ≤ n) : Confined (l ++ [hiddenName name]) (l ++ [hiddenName name]) w.files w'.files ∧
      K.holds (contributions (plan.limits true) start plan.source loc n [] [] options.scope) w'.files := by
  have hdir : w.files.at? loc = some .directory := by
    rcases hst.grown loc hoff with he | ⟨-, he⟩
    · rw [he, hd]
    · exact he
  have henters : (stagedSetup hp hst hs hfree options.links).Enters (plan.inner options) [] [] plan.staging :=
    ⟨rfl, rfl, by simpa [stagedSetup] using hdir, by simpa [stagedSetup] using hoff, nofun,
      by rw [List.append_nil]; exact hp.staging.1⟩
  obtain ⟨hconfined, hholds⟩ := Setup.render_lays K maxNesting henters hfit ⟨hst.confined, hstart⟩ hn hrun
  refine ⟨hconfined, ?_⟩
  rw [← contributions_grown hw ⟨hst.grown, hst.confined.directory⟩ (passedOver_staging hp hs) n (by simpa using hoff)]
  exact hholds

include hp hst hs

/-- What is rendered into an empty staging directory. -/
theorem render_staged (hw : start.WellFormed) (hfree : w.files.LinkFree [])
    (hcss : options.links.count .stylesheet ≤ 1)
    (hplain : MeetsPlain (plan.limits true) maxNesting (plan.inner options) plan.source plan.staging w)
    (hrun : render (plan.limits true) maxNesting (plan.inner options) plan.source plan.staging w = .ok () w')
    (hn : maxNesting ≤ n) : Emitted options.links (l ++ [hiddenName name])
      (contributions (plan.limits true) start plan.source loc n [] [] options.scope) w'.files := by
  let K := (stagedSetup hp hst hs hfree options.links).laying hcss
  have hstart : K.holds [] w.files := ⟨laid_staged hst, nofun⟩
  exact (staged_holds (K := K) hp hst hs hd hoff hw hplain hstart hrun hn).2

end

theorem produce_unhashed {limits : Limits} {hashed : Asset.Renames} (hhash : options.hash = false)
    (h : produce limits options w = .ok hashed w') :
    render limits maxNesting options options.sourceRoot options.outputRoot w = .ok () w' := by
  obtain ⟨u, w₁, hr, h₁⟩ := bind_eq_ok h
  rw [hhash] at h₁
  cases h₁
  exact hr

/-- If a clean build without renaming succeeds, then the files at its output are those of the layout below which
the layout has no other one. -/
theorem build_lays_out (hw : w.files.WellFormed) (hfree : w.files.LinkFree []) (hcwd : ∀ s ∈ w.cwd, IsName s)
    (hclean : options.clean = true) (hhash : options.hash = false) (hcss : options.links.count .stylesheet ≤ 1)
    (hup : .up ∉ options.outputRoot.components) (hplain : ExpandsPlain options w)
    (hv : validate options w = .ok plan w₁) (hsource : ¬ settled plan.staging <+: settled plan.source)
    (h : build options w = .ok report w') (hn : maxNesting ≤ n) : report.outputRoot = plan.output ∧
      Emitted options.links (settled plan.output) (sourceFiles plan options w.files n) w'.files := by
  obtain ⟨hs, hd⟩ := source_of_validate hw hv
  obtain ⟨l, name, hp⟩ := placed_of_validate hw hcwd hup hv
  obtain ⟨hfiles, -⟩ := validate_ok hv
  obtain ⟨hout, hstaging⟩ := hp.settled_eq
  rw [hout]
  replace hsource : ¬ l ++ [hiddenName name] <+: settled plan.source := hstaging ▸ hsource
  rw [sourceFiles]
  rw [← hfiles] at hw hfree hd hp ⊢
  replace h := (build_of_plan hv).symm.trans h
  rw [hclean] at h
  rcases prepare_cases hw hp w.cwd with ⟨w₂, hprep, ⟨dir, hst⟩, -⟩ | ⟨e, w₂, hprep, -⟩
  · have hfree₂ := (prepare_confined ⟨hw, hfree⟩ hp.spells hprep).1
    obtain rfl : dir = l := by
      have hr : w₂.files.Reaches l dir := hst.reaches fun _ _ _ => rfl
      exact (Leads.location_settle hr hfree₂).trans (settle_names hp.names [])
    have hplain₂ := hplain plan w₁ w₂ hv (hclean ▸ hprep)
    replace h := (bind_ok hprep).symm.trans h
    rcases carryOut_cases hw hp hst hclean hplain₂ with
      ⟨e, -, w₃, -, hrun, -⟩ | ⟨-, -, e, w₃, -, hrun, -⟩ | ⟨hashed, w₃, w₄, hproduce, hrun, hpublished, -⟩
    · cases (bind_error hrun).symm.trans h
    · cases (bind_error hrun).symm.trans h
    · obtain ⟨u, w₅, ht, hr⟩ := bind_eq_ok ((bind_ok hrun).symm.trans h)
      cases ht
      cases hr
      refine ⟨rfl, ?_⟩
      have hrender := produce_unhashed (show (plan.inner options).hash = false from hhash) hproduce
      rw [inner_outputRoot plan hclean] at hrender
      rw [hclean] at hplain₂
      have hlaid := render_staged hp hst hs hd hsource hw hfree₂ hcss hplain₂ hrender hn
      exact hlaid.moved hpublished.moved
  · cases (bind_error hprep).symm.trans h

/-- A clean build that keeps the names of its assets. -/
def plainBuild (source output : String) (scope : Scope) : Options :=
  ⟨⟨source⟩, ⟨output⟩, scope, [], [.page, .stylesheet], true, false⟩

/-- A page for each tag, a stylesheet that is bundled and one that is not, and a file to be copied. -/
def tagPages : World :=
  ⟨⟨[(["src", "[tag of tags]", "[tag].ejs"], .file "<%= tag %>".toUTF8), (["src", "[tag of tags]"], .directory),
    (["src", "css", "base.css"], .file "p { }".toUTF8), (["src", "css", "index.css"], .file "a { }".toUTF8),
    (["src", "css"], .directory), (["src", "logo.svg"], .file "x".toUTF8), (["src"], .directory),
    (["site", "old.txt"], .file "old".toUTF8), (["site"], .directory)]⟩, [], []⟩

def twoTags : Options := plainBuild "src" "site" (.ofPairs [("tags", .list [.text "a", .text "b"])])

theorem tagPages_laid_out : ∃ plan w₁ report w', validate twoTags tagPages = .ok plan w₁ ∧
    build twoTags tagPages = .ok report w' ∧ report.outputRoot = plan.output ∧
      Emitted twoTags.links (settled plan.output) (sourceFiles plan twoTags tagPages.files maxNesting) w'.files := by
  obtain ⟨plan, w₁, hv, hsource⟩ := yields_iff.1 (show yields (validate twoTags) tagPages (fun plan _ =>
    !decide (settled plan.staging <+: settled plan.source)) = true by decide +kernel)
  obtain ⟨report, w', h⟩ := succeeds_iff.1 (show succeeds (build twoTags) tagPages = true by decide +kernel)
  have hplain : ExpandsPlain twoTags tagPages := by decide +kernel
  exact ⟨plan, w₁, report, w', hv, h, build_lays_out (by decide +kernel) (by decide +kernel) (by decide) rfl rfl
    (by decide) (by decide +kernel) hplain hv (by simpa using hsource) h le_rfl⟩

/-- The page `A` has a directory of its own, at which the file named by `v` then finds its target. -/
def takenTarget : World :=
  ⟨⟨[(["src", "A.ejs"], .file "hi".toUTF8), (["src", "[v]"], .file "x".toUTF8), (["src"], .directory)]⟩, [], []⟩

def namesA : Options := plainBuild "src" "site" (.ofPairs [("v", .text "A")])

/-- The layout has a file that the output of a successful build does not have. -/
theorem build_leaves_out_file : takenTarget.files.WellFormed ∧ takenTarget.files.LinkFree [] ∧
    ExpandsPlain namesA takenTarget ∧ ∃ plan w₁ report w', validate namesA takenTarget = .ok plan w₁ ∧
      ¬ settled plan.staging <+: settled plan.source ∧ build namesA takenTarget = .ok report w' ∧
      ["A"] ∈ (sourceFiles plan namesA takenTarget.files maxNesting).filterMap (·.layout namesA.links) ∧
      w'.files.at? (settled plan.output ++ ["A"]) = some .directory := by
  refine ⟨by decide +kernel, by decide +kernel, by decide +kernel, ?_⟩
  obtain ⟨plan, w₁, hv, hplan⟩ := yields_iff.1 (show yields (validate namesA) takenTarget (fun plan _ =>
    !decide (settled plan.staging <+: settled plan.source) &&
      decide (["A"] ∈ (sourceFiles plan namesA takenTarget.files maxNesting).filterMap (·.layout namesA.links)) &&
      yields (build namesA) takenTarget fun _ w' => isDirectoryAt w'.files (settled plan.output ++ ["A"])) = true
    by decide +kernel)
  simp only [Bool.and_eq_true, Bool.not_eq_true', decide_eq_false_iff_not, decide_eq_true_eq] at hplan
  obtain ⟨⟨hsource, hmem⟩, hbuild⟩ := hplan
  obtain ⟨report, w', h, hd⟩ := yields_iff.1 hbuild
  exact ⟨plan, w₁, report, w', hv, hsource, h, hmem, isDirectoryAt_iff.1 hd⟩

end SiteTree.Build
