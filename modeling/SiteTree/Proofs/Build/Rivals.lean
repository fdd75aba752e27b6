import SiteTree.Proofs.Build.Layout
import SiteTree.Proofs.Walk.Outlet

/-!
The files of a source tree of literal names that a build writes to one path: a page without a directory of
its own in the source, and what stands for it in such a directory.
-/

namespace SiteTree.Build

open SiteTree.Action FileSystem SiteTree.Path Walk

variable {options : Options} {plan : Plan} {w w₁ w₂ : World}

/-- The files that a build visits, each with the target that it hands over, from the world that its walk starts in. -/
def visited (plan : Plan) (options : Options) (w : World) : List Handover :=
  handed Walk.emit (plan.limits options.clean) maxNesting (plan.inner options) plan.source (plan.root options.clean) w

/-- A file of literal names is written to its outlet or not at all, and two different ones have one outlet exactly if
they are rivals and a link takes pages. -/
theorem build_outlets (hw : w.files.WellFormed) (hcwd : ∀ s ∈ w.cwd, IsName s)
    (hone : options.links.count .stylesheet ≤ 1) (hv : validate options w = .ok plan w₁) (w₂ : World) :
    (∀ x ∈ visited plan options w₂, x.IsLiteral → ∀ w', emit x.options x.source x.target x.world = .ok () w' →
      Effect options.links x.source x.target x.world w') ∧
    ∀ x ∈ visited plan options w₂, ∀ y ∈ visited plan options w₂, x.IsLiteral → y.IsLiteral → x.source ≠ y.source →
      ((∃ p ∈ outlet options.links x.source x.target, ∃ q ∈ outlet options.links y.source y.target,
          p.alike q = true) ↔
        .page ∈ options.links ∧ (Rivals x.trail y.trail ∨ Rivals y.trail x.trail)) := by
  obtain ⟨-, hsource, hlocation, -⟩ := validate_ok hv
  obtain ⟨loc, hs⟩ := canonical_spells hw hsource
  obtain ⟨l, hp⟩ := outputLocation_spells hw hcwd hlocation
  obtain ⟨base, hd⟩ := root_spells hp options.clean
  have hdir : plan.source.text ≠ "" := by simpa [Path.isEmpty] using hs.isEmpty
  constructor
  · intro x hx hl w' hrun
    have hleads := handed_leads hx
    obtain ⟨m, s, haimed⟩ := hleads.aimed hl hd hdir
    have hlinks : x.options.links = options.links := by rw [hleads.kept]; rfl
    rw [← hlinks]
    exact emit_effect haimed (hlinks ▸ hone) hrun
  · intro x hx y hy hlx hly hne
    have hiff := outlets_alike_iff hd hdir hx hy hlx hly hne
    exact hiff

/-- A page, and the index of a directory that is named like it. -/
def twoAbouts : World :=
  ⟨⟨[(["src", "about.ejs"], .file "A".toUTF8), (["src", "about", "index.ejs"], .file "B".toUTF8),
    (["src", "about"], .directory), (["src"], .directory)]⟩, [], []⟩

def plainSite : Options := plainBuild "src" "site" .empty

theorem twoAbouts_share : ∃ plan w₁ w₂, validate plainSite twoAbouts = .ok plan w₁ ∧
    prepare plan plainSite.clean w₁ = .ok () w₂ ∧ ∃ x ∈ visited plan plainSite w₂, ∃ y ∈ visited plan plainSite w₂,
      x.IsLiteral ∧ y.IsLiteral ∧ x.source ≠ y.source ∧
      ∃ p ∈ outlet plainSite.links x.source x.target, ∃ q ∈ outlet plainSite.links y.source y.target,
        p.alike q = true := by
  obtain ⟨plan, w₁, hv, hrest⟩ := yields_iff.1 (show yields (validate plainSite) twoAbouts (fun plan w₁ =>
    yields (prepare plan plainSite.clean) w₁ fun _ w₂ => (visited plan plainSite w₂).any fun x =>
      (visited plan plainSite w₂).any fun y => decide (x.IsLiteral ∧ y.IsLiteral ∧ x.source ≠ y.source ∧
        x.trail = ["about.ejs"] ∧ y.trail = ["about", "index.ejs"])) = true by decide +kernel)
  obtain ⟨u, w₂, hprep, hrest⟩ := yields_iff.1 hrest
  obtain ⟨x, hx, hrest⟩ := List.any_eq_true.1 hrest
  obtain ⟨y, hy, hrest⟩ := List.any_eq_true.1 hrest
  obtain ⟨hlx, hly, hne, htx, hty⟩ := of_decide_eq_true hrest
  have hrivals : Rivals x.trail y.trail :=
    ⟨[], "about", by decide, htx, by rw [if_neg (by decide)]; exact .inr hty⟩
  exact ⟨plan, w₁, w₂, hv, hprep, x, hx, y, hy, hlx, hly, hne,
    ((build_outlets (by decide +kernel) (by decide) (by decide) hv w₂).2 x hx y hy hlx hly hne).2
      ⟨by decide, .inl hrivals⟩⟩

/-- The build of the two succeeds, and one page has silently replaced the other. -/
theorem twoAbouts_replaced : twoAbouts.files.WellFormed ∧ twoAbouts.files.LinkFree [] ∧
    plainSite.links.count .stylesheet ≤ 1 ∧
    (∃ plan w₁ w₂, validate plainSite twoAbouts = .ok plan w₁ ∧ prepare plan plainSite.clean w₁ = .ok () w₂ ∧
      ∃ x ∈ visited plan plainSite w₂, ∃ y ∈ visited plan plainSite w₂, x.IsLiteral ∧ y.IsLiteral ∧
        x.source ≠ y.source ∧ ∃ p, outlet plainSite.links x.source x.target = some p ∧
          outlet plainSite.links y.source y.target = some p) ∧
    ∃ report w', build plainSite twoAbouts = .ok report w' ∧
      w'.files.at? ["site", "about", "index.html"] = some (.file "A".toUTF8) ∧
      (w'.files.entries.filter (·.2 = .file "B".toUTF8)).map (·.1) = [["src", "about", "index.ejs"]] := by
  refine ⟨by decide +kernel, by decide +kernel, by decide, ?_, ?_⟩
  · obtain ⟨plan, w₁, hv, hrest⟩ := yields_iff.1 (show yields (validate plainSite) twoAbouts (fun plan w₁ =>
      yields (prepare plan plainSite.clean) w₁ fun _ w₂ => (visited plan plainSite w₂).any fun x =>
        (visited plan plainSite w₂).any fun y => decide (x.IsLiteral ∧ y.IsLiteral ∧ x.source ≠ y.source ∧
          outlet plainSite.links x.source x.target = outlet plainSite.links y.source y.target ∧
          (outlet plainSite.links x.source x.target).isSome)) = true by decide +kernel)
    obtain ⟨u, w₂, hprep, hrest⟩ := yields_iff.1 hrest
    obtain ⟨x, hx, hrest⟩ := List.any_eq_true.1 hrest
    obtain ⟨y, hy, hrest⟩ := List.any_eq_true.1 hrest
    obtain ⟨hlx, hly, hne, hsame, hsome⟩ := of_decide_eq_true hrest
    obtain ⟨p, hp⟩ := Option.isSome_iff_exists.1 hsome
    exact ⟨plan, w₁, w₂, hv, hprep, x, hx, y, hy, hlx, hly, hne, p, hp, hsame ▸ hp⟩
  · obtain ⟨report, w', hrun, hfiles⟩ := yields_iff.1 (show yields (build plainSite) twoAbouts (fun _ w' =>
      decide (w'.files.at? ["site", "about", "index.html"] = some (.file "A".toUTF8) ∧
        (w'.files.entries.filter (·.2 = .file "B".toUTF8)).map (·.1) = [["src", "about", "index.ejs"]])) = true
      by decide +kernel)
    exact ⟨report, w', hrun, of_decide_eq_true hfiles⟩

end SiteTree.Build
