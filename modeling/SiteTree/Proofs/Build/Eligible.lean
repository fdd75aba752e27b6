import SiteTree.Proofs.Build.Checked
import SiteTree.Proofs.Build.Rivals
import SiteTree.Proofs.Walk.Calls
import SiteTree.Proofs.Walk.Fence

/-!
What a build hands to its chain or copies: files of the source that are not ignored, nor in a directory that is, and
that are none of the build's own. That holds whatever the names expand to, and while the tree grows.
-/

namespace SiteTree.Build

open SiteTree.Action FileSystem SiteTree.Path Walk

variable {options : Options} {plan : Plan} {clean : Bool} {w w₁ w₂ : World} {n : Nat} {dir dest : Path} {loc : Location}
  {limits : Limits} {x : Handover} {l : List String} {name : String}

/-- A path in the source that is not hidden, has no directory on the way to it that is hidden, and lies off the output
and, in a clean build, off the staging directory. -/
structure Eligible (plan : Plan) (clean : Bool) (names : List String) (p : Path) : Prop where
  eq : p = plan.source.descend names
  settled : settled p = settled plan.source ++ names
  shown : ∀ k, k ≠ [] → k <+: names → plan.ignore.hides ⟨"/".intercalate k⟩ = false
  output : ¬ FileSystem.settled plan.output <+: FileSystem.settled p
  staging : clean = true → ¬ FileSystem.settled plan.staging <+: FileSystem.settled p

/-- The filter is made of the defaults, the patterns of the source's own file and those of the options, in this order. -/
theorem filterFor_ok {source : Path} {patterns : List String} {ignore : Ignore} (h : filterFor source patterns w = .ok ignore w₁) :
    ∃ own, ownPatterns (source.child Ignore.fileName) w = .ok own w₁ ∧
      Ignore.ofPatterns (Ignore.defaults ++ own ++ patterns) = .ok ignore := by
  obtain ⟨own, w₂, hown, hfilter⟩ := bind_eq_ok h
  obtain ⟨hignore, rfl⟩ := ofExcept_ok hfilter
  exact ⟨own, hown, hignore⟩

/-- From a directory without entries nothing is handed over. -/
theorem handed_of_vacant (hfound : ∀ y node, w.files.found w.cwd dir = .ok (y, node) → y = loc)
    (hnone : ∀ name, w.files.at? (loc ++ [name]) = none) : handed emit limits n options dir dest w = [] := by
  cases n with
  | zero => rfl
  | succ n =>
      refine List.eq_nil_iff_forall_not_mem.2 fun x hx => ?_
      obtain ⟨entry, e, w', y, ⟨entries, expansions, w₁, w₂, hl, ⟨before, rest, rfl, -⟩, -⟩, -⟩ := mem_handed_emit.1 hx
      obtain ⟨-, names, hnames, hmem⟩ := mem_listing hl (List.mem_append_right before List.mem_cons_self)
      rw [list] at hnames
      cases hf : w.files.found w.cwd dir with
      | error cause => rw [hf] at hnames; cases hnames
      | ok there =>
          obtain ⟨y, node⟩ := there
          obtain rfl := hfound y node hf
          rw [hf] at hnames
          cases node with
          | file | link => cases hnames
          | directory =>
              cases hnames
              rw [mem_children, hnone] at hmem
              cases hmem

/-- Without links a path below the source leads where it says. -/
theorem found_descend {fs : FileSystem} {cwd y : Location} {names : List String} {node : FileNode} {source : Path}
    (hfree : fs.LinkFree []) (hs : source.Spells loc) (hnames : ∀ s ∈ loc ++ names, IsName s)
    (hfound : fs.found cwd (source.descend names) = .ok (y, node)) : y = loc ++ names :=
  found_unlinked (hs.descend fun s hmem => hnames s (List.mem_append_right loc hmem)) (fun s hmem => (hnames s hmem).isStep)
    (fun z target _ => hfree z target List.nil_prefix) hfound

/-- A source in the staging directory is gone once that has been prepared. -/
theorem not_staged_of_handed (hw : w₁.files.WellFormed) (hp : Placed w₁.files plan.output l name)
    (hs : plan.source.Spells loc) (hloc : ∀ s ∈ loc, IsName s) (hfree : w₂.files.LinkFree [])
    (hprepare : prepare plan true w₁ = .ok () w₂) (hx : x ∈ handed emit limits n options plan.source dest w₂) :
    ¬ l ++ [hiddenName name] <+: loc := by
  intro hpre
  rcases prepare_cases hw hp w₁.cwd with ⟨w₃, hrun, ⟨dir, hst⟩, -⟩ | ⟨e, w₃, hrun, -⟩
  · cases hprepare.symm.trans hrun
    obtain rfl : dir = l := hst.eq_of_linkFree hp hfree
    have hnone : ∀ s, w₂.files.at? (loc ++ [s]) = none := fun s =>
      hst.empty _ (hpre.trans (List.prefix_append _ _)) fun he => not_append_isPrefix (he ▸ hpre)
    rw [handed_of_vacant (fun y node hfound => ?_) hnone] at hx
    · cases hx
    · simpa using found_descend hfree hs (show ∀ s ∈ loc ++ [], IsName s by simpa using hloc) hfound
  · cases hprepare.symm.trans hrun

section

variable (hw : w.files.WellFormed) (hfree : w.files.LinkFree []) (hcwd : ∀ s ∈ w.cwd, IsName s)
  (hup : .up ∉ options.outputRoot.components) (hv : validate options w = .ok plan w₁)
  (hprepare : prepare plan options.clean w₁ = .ok () w₂)

include hw hfree hcwd hup hv hprepare

theorem eligible_of_mem_visited (hx : x ∈ visited plan options w₂) : Eligible plan options.clean x.names x.source ∧
    ∀ loc node, x.world.files.found x.world.cwd x.source = .ok (loc, node) → loc = settled x.source := by
  obtain ⟨hs, hd⟩ := source_of_validate hw hv
  obtain ⟨l, name, hp⟩ := placed_of_validate hw hcwd hup hv
  obtain ⟨hfiles, -, -, hstarts⟩ := validate_ok hv
  rw [← hfiles] at hw hfree hp hd
  obtain ⟨hout, hstaging⟩ : settled plan.output = l ++ [name] ∧ settled plan.staging = l ++ [hiddenName name] := hp.settled_eq
  obtain ⟨hfree₂, m, -, hconfined⟩ := prepare_confined ⟨hw, hfree⟩ hp.spells hprepare
  have hloc : ∀ s ∈ settled plan.source, IsName s := hw.isName_of_mem (by rw [hd]; rfl)
  have hsource : ¬ l ++ [name] <+: settled plan.source := by
    intro hpre
    rw [(hs.startsWith_iff hp.spells).2 hpre] at hstarts
    cases hstarts
  have hleads := handed_leads hx
  obtain ⟨hnames, hentered⟩ : (∀ s ∈ x.names, IsName s) ∧ Entered (plan.limits options.clean) plan.source x.names :=
    @handed_entered _ _ _ _ _ [] _ _ hconfined.wellFormed rfl hs.ne_empty nofun
      (fun k hk hpre => absurd (List.prefix_nil.1 hpre) hk) hx
  have hall : ∀ s ∈ settled plan.source ++ x.names, IsName s := by simpa [or_imp, forall_and] using ⟨hloc, hnames⟩
  have hsettled : settled x.source = settled plan.source ++ x.names :=
    hleads.source ▸ settled_of_names (hs.descend hnames) hall
  refine ⟨⟨hleads.source, hsettled, fun k hk hpre => ?_, ?_, fun hclean => ?_⟩, fun y node hfound => ?_⟩
  · exact (Bool.or_eq_false_iff.1 (hentered k hk hpre)).2
  · rw [hsettled, hout]
    exact hentered.off (passedOver_output hp hs options.clean) hsource
  · rw [hsettled, hstaging]
    rw [hclean] at hentered hprepare
    exact hentered.off (passedOver_staging hp hs) (not_staged_of_handed hw hp hs hloc hfree₂ hprepare hx)
  · have hwritten : Written w₂.files x.world.files := (handed_written (.refl hconfined.wellFormed)).1 x hx
    rw [hleads.source] at hfound
    rw [hsettled]
    exact found_descend (hwritten.linkFree hfree₂) hs hall hfound

/-- In a tree without links, and with an output path without double dots, a build hands over eligible files only: it
does not matter what would be done to others. -/
theorem visited_eligible : (∃ own w₃, ownPatterns (plan.source.child Ignore.fileName) w = .ok own w₃ ∧
      Ignore.ofPatterns (Ignore.defaults ++ own ++ options.ignore) = .ok plan.ignore) ∧
    (∀ x ∈ visited plan options w₂, Eligible plan options.clean x.names x.source ∧
      ∀ loc node, x.world.files.found x.world.cwd x.source = .ok (loc, node) → loc = settled x.source) ∧
    ∀ emit : Emission, (∀ names options' source target w',
        Eligible plan options.clean names source → emit options' source target w' = Walk.emit options' source target w') →
      renderWith emit (plan.limits options.clean) maxNesting (plan.inner options) plan.source (plan.root options.clean) w₂ =
        render (plan.limits options.clean) maxNesting (plan.inner options) plan.source (plan.root options.clean) w₂ := by
  have heligible := fun x hx => eligible_of_mem_visited hw hfree hcwd hup hv hprepare (x := x) hx
  obtain ⟨w₃, hfilter⟩ := validate_filter hv
  obtain ⟨own, hown, hignore⟩ := filterFor_ok hfilter
  refine ⟨⟨own, w₃, hown, hignore⟩, heligible, fun emit hemit => ?_⟩
  rw [← renderWith_emit]
  exact (renderWith_congr fun x hx => (hemit _ _ _ _ _ (heligible x hx).1).symm).symm

end

/-- A source with a loop, a directory that its ignore file names, a file that the options ignore, and in it the output
and the staging directory of an earlier build. -/
def busySource : World :=
  ⟨⟨[(["src", "[x of xs]", "[x].txt"], .file "x".toUTF8), (["src", "[x of xs]"], .directory),
    (["src", Ignore.fileName], .file "drafts".toUTF8), (["src", "drafts", "a.txt"], .file "a".toUTF8),
    (["src", "drafts"], .directory), (["src", "b.bak"], .file "b".toUTF8),
    (["src", "out", "old.txt"], .file "old".toUTF8), (["src", "out"], .directory),
    (["src", ".out.staging", "left.txt"], .file "left".toUTF8), (["src", ".out.staging"], .directory),
    (["src"], .directory)]⟩, [], []⟩

def busyBuild : Options :=
  ⟨⟨"src"⟩, ⟨"src/out"⟩, .ofPairs [("xs", .list [.text "a", .text "../src/b"])], ["*.bak"], [.page, .stylesheet], true, false⟩

theorem busySource_eligible : ∃ plan w₁ w₂, validate busyBuild busySource = .ok plan w₁ ∧
    prepare plan busyBuild.clean w₁ = .ok () w₂ ∧ ∃ x ∈ visited plan busyBuild w₂,
      x.trail = ["../src/b.txt"] ∧ Eligible plan true ["[x of xs]", "[x].txt"] x.source := by
  obtain ⟨plan, w₁, hv, hrest⟩ := yields_iff.1 (show yields (validate busyBuild) busySource (fun plan w₁ =>
    yields (prepare plan busyBuild.clean) w₁ fun _ w₂ => (visited plan busyBuild w₂).any fun x =>
      decide (x.trail = ["../src/b.txt"] ∧ x.names = ["[x of xs]", "[x].txt"])) = true by decide +kernel)
  obtain ⟨u, w₂, hprepare, hrest⟩ := yields_iff.1 hrest
  obtain ⟨x, hx, hrest⟩ := List.any_eq_true.1 hrest
  obtain ⟨htrail, hnames⟩ := of_decide_eq_true hrest
  have heligible := ((visited_eligible (by decide +kernel) (by decide +kernel) (by decide) (by decide +kernel) hv
    hprepare).2.1 x hx).1
  exact ⟨plan, w₁, w₂, hv, hprepare, x, hx, htrail, hnames ▸ heligible⟩

end SiteTree.Build
