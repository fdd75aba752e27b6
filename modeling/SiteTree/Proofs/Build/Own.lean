import SiteTree.Proofs.Build.Alike
import SiteTree.Proofs.Build.Checked

/-!
The build's own directories, which are the output and the staging directory. A walk of the source keeps off them, so
clean builds in trees that differ only there end alike.
-/

namespace SiteTree.Build

open SiteTree.Action FileSystem SiteTree.Path Walk

variable {I : Location → Prop} {options : Options} {limits : Limits} {plan : Plan} {start : FileSystem}
  {w w' w₁ w₁' : World} {l rel : List String} {loc dir x : Location} {name name' s : String} {p source : Path}

/-- Neither at nor below an output or the staging directory beside it. -/
def Outside (output : Path) (x : Location) : Prop := ¬ settled output <+: x ∧ ¬ settled (stagingPath output) <+: x

instance (output : Path) : DecidablePred (Outside output) := fun _ => instDecidableAnd

theorem not_outside : ¬ Outside p x ↔ settled p <+: x ∨ settled (stagingPath p) <+: x := by
  rw [Outside, ← not_or, not_not]

theorem own_below (x y : Location) (h : ¬ Outside p x) : ¬ Outside p (x ++ y) := by
  rw [not_outside] at h ⊢
  exact h.imp (fun h => h.trans (List.prefix_append x y)) fun h => h.trans (List.prefix_append x y)

/-- The way from outside leads through the roots of the build's own directories. -/
theorem own_root (h : Outside p x) (hs : ¬ Outside p (x ++ [s])) :
    x ++ [s] = settled p ∨ x ++ [s] = settled (stagingPath p) := by
  rcases not_outside.1 hs with hs | hs
  · exact .inl ((List.prefix_concat_iff.1 hs).resolve_right h.1).symm
  · exact .inr ((List.prefix_concat_iff.1 hs).resolve_right h.2).symm

theorem passes_of_skip (hp : p ∈ limits.skip) (hspells : p.Spells (loc ++ rel)) (hs : source.Spells loc)
    (hrel : ∀ s ∈ rel, IsName s) : limits.passes source (source.descend rel) = true := by
  have halike : p.alike (source.descend rel) = true := Spells.alike hspells (hs.descend hrel)
  have hany : limits.skip.any (·.alike (source.descend rel)) = true := List.any_eq_true.2 ⟨p, hp, halike⟩
  rw [Limits.passes, hany, Bool.true_or]

theorem Placed.outside_above (hp : Placed start p l name) (hx : x <+: l) : Outside p x := by
  obtain ⟨hout, hstaging⟩ : settled p = l ++ [name] ∧ settled (stagingPath p) = l ++ [hiddenName name] := hp.settled_eq
  rw [Outside, hout, hstaging]
  exact ⟨not_append_isPrefix_of_isPrefix hx, not_append_isPrefix_of_isPrefix hx⟩

/-- The clean walk passes over both directories. -/
theorem Placed.passes (hp : Placed start plan.output l name) (hs : plan.source.Spells loc)
    (hrel : ∀ s ∈ rel ++ [name'], IsName s) (hx : Outside plan.output (loc ++ rel))
    (hown : ¬ Outside plan.output (loc ++ rel ++ [name'])) :
    (plan.limits true).passes plan.source ((plan.source.descend rel).child name') = true := by
  obtain ⟨hout, hstaging⟩ : settled plan.output = l ++ [name] ∧ settled (stagingPath plan.output) = l ++ [hiddenName name] :=
    hp.settled_eq
  rw [← descend_append]
  rcases own_root hx hown with he | he
  · rw [hout, List.append_assoc] at he
    exact passes_of_skip (by simp [Plan.limits]) (he ▸ hp.spells) hs hrel
  · rw [hstaging, List.append_assoc] at he
    exact passes_of_skip (p := plan.staging) (by simp [Plan.limits]) (he ▸ hp.staging.1) hs hrel

/-- Once the staging directory has been made, there are no more links below the source than there were. -/
theorem Staged.fence (hst : Staged start w.files l name dir) (hw : start.WellFormed) (hs : source.Spells loc)
    (hd : start.at? loc = some .directory) (hbelow : ∀ x y, I x → I (x ++ y)) (hout : ¬ I loc)
    (hpasses : ∀ rel name, (∀ s ∈ rel ++ [name], IsName s) → ¬ I (loc ++ rel) → I (loc ++ rel ++ [name]) →
      limits.passes source ((source.descend rel).child name) = true)
    (hlinks : ∀ y s target, loc <+: y → start.at? (y ++ [s]) = some (.link target) → I y) :
    Fence I limits source loc (stagingGround l name dir w) := by
  refine ⟨hs, hw.isName_of_mem (by rw [hd]; rfl), hbelow, hout, fun rel name hn hrel hin _ => hpasses rel name hn hrel hin,
    fun y s target hside hat => ?_⟩
  have hin : ¬ dir ++ [hiddenName name] <+: y ++ [s] := fun hc => hst.confined.linkFree _ target hc hat
  replace hat : w.files.at? (y ++ [s]) = some (.link target) := hat
  rcases hst.grown _ hin with he | ⟨-, he⟩
  · rw [he] at hat
    rcases hside with hpre | hpre
    · cases hat.symm.trans (hw.directory_above hd hpre)
    · exact hlinks y s target hpre hat
  · cases hat.symm.trans he

/-- The walk of a clean build comes to none of the places behind its fence. -/
theorem Staged.clear (hst : Staged start w.files l name dir) (hp : Placed start plan.output l name)
    (hclean : options.clean = true) (hlinks : options.links = []) (hnames : ExpandsToNames options w₁')
    (hv : validate options w₁' = .ok plan w₁) (hprepare : prepare plan true w₁ = .ok () w)
    (hf : Fence I (plan.limits true) plan.source loc (stagingGround l name dir w)) :
    Clear I (plan.limits true) maxNesting (plan.inner options) plan.source plan.staging w := by
  have honly := hnames plan w₁ w hv (by rwa [hclean])
  rw [hclean, Plan.root, if_pos rfl] at honly
  exact hf.clear_root maxNesting hlinks rfl hst.confined (Below.self hp.staging.1) honly

/-- What the build's own directories hold, if they are directories, is not looked at. -/
theorem Staged.own_fence (hst : Staged start w.files l name dir) (hp : Placed start plan.output l name)
    (hw : start.WellFormed) (ho : start.OpenTo (l ++ [name])) (hos : start.OpenTo (l ++ [hiddenName name]))
    (hs : plan.source.Spells loc) (hd : start.at? loc = some .directory) (hsource : Outside plan.output loc)
    (hfree : ∀ x target, loc <+: x → Outside plan.output x → start.at? x ≠ some (.link target)) :
    Fence (fun x => ¬ Outside plan.output x) (plan.limits true) plan.source loc (stagingGround l name dir w) := by
  obtain ⟨hout, hstaging⟩ : settled plan.output = l ++ [name] ∧ settled (stagingPath plan.output) = l ++ [hiddenName name] :=
    hp.settled_eq
  refine hst.fence hw hs hd own_below (not_not.2 hsource)
    (fun rel name hn hrel hin => hp.passes hs hn (not_not.1 hrel) hin) fun y s target hpre hat hy => ?_
  by_cases hys : Outside plan.output (y ++ [s])
  · exact hfree _ target (hpre.trans (List.prefix_append _ _)) hys hat
  · rcases own_root hy hys with he | he
    · exact ho.not_link target (hout ▸ he ▸ hat)
    · exact hos.not_link target (hstaging ▸ he ▸ hat)

section

variable (hw : w.files.WellFormed) (hw' : w'.files.WellFormed) (hcwd : w'.cwd = w.cwd) (hclean : options.clean = true)
  (hlinks : options.links = []) (hnames : ExpandsToNames options w) (hnames' : ExpandsToNames options w')
  (hv : validate options w = .ok plan w₁) (hv' : validate options w' = .ok plan w₁')
  (hp : Placed w.files plan.output l name) (hp' : Placed w'.files plan.output l name)
  (hs : plan.source.Spells loc) (hd : w.files.at? loc = some .directory) (hd' : w'.files.at? loc = some .directory)

include hw hw' hcwd hclean hlinks hnames hnames' hv hv' hp hp' hs hd hd'

/-- What has been left in the build's own directories does not matter, nor whether the levels above are there. -/
theorem build_alike_open (ho : w.files.OpenTo (l ++ [name])) (hos : w.files.OpenTo (l ++ [hiddenName name]))
    (ho' : w'.files.OpenTo (l ++ [name])) (hos' : w'.files.OpenTo (l ++ [hiddenName name]))
    (hsource : Outside plan.output loc)
    (hfree : ∀ x target, loc <+: x → Outside plan.output x → w.files.at? x ≠ some (.link target))
    (hfree' : ∀ x target, loc <+: x → Outside plan.output x → w'.files.at? x ≠ some (.link target))
    (hsame : ∀ x, Outside plan.output x → x <+: l ∨ w'.files.at? x = w.files.at? x) :
    EndAlike True (fun w₂ w₂' => ∀ cwd, treeAt w₂'.files cwd plan.output = treeAt w₂.files cwd plan.output) Eq
      (build options w) (build options w') := by
  obtain ⟨events, rfl⟩ := validate_tells hv
  obtain ⟨events', rfl⟩ := validate_tells hv'
  have hw₁ : ({ w with events := events } : World).files.WellFormed := hw
  have hw₁' : ({ w' with events := events' } : World).files.WellFormed := hw'
  have hup : ∀ {fs : FileSystem}, fs.OpenTo (l ++ [name]) → fs.OpenTo l := fun ho => ho.above (List.prefix_append _ _)
  have hblocked : (∃ bytes, w'.files.at? (l ++ [name]) = some (.file bytes)) ↔
      ∃ bytes, w.files.at? (l ++ [name]) = some (.file bytes) :=
    ⟨fun ⟨bytes, hb⟩ => absurd hb (ho'.not_file bytes), fun ⟨bytes, hb⟩ => absurd hb (ho.not_file bytes)⟩
  have hprepare : EndAlike True
      (fun w₂ w₂' => ∃ dir, Prepared (fun x => ¬ Outside plan.output x) w.files w'.files l name dir w₂ w₂') (fun _ _ => True)
      (prepare plan true { w with events := events }) (prepare plan true { w' with events := events' }) :=
    prepare_open_alike hw₁ hw₁' hcwd hp hp' (hup ho) (hup ho') hos.not_file hos'.not_file
      (fun x hx => hsame x (not_not.1 hx)) hblocked
  refine build_alike hw hw' hclean hlinks hv hv' hp hp' hprepare (fun w₂ hrun => ?_) (fun w₂ hrun => ?_) hnames
  · obtain ⟨w₃, hrun', -, hst, -⟩ := prepare_open (w := { w with events := events }) hw hp (hup ho) hos.not_file
    cases hrun.symm.trans hrun'
    exact hst.clear hp hclean hlinks hnames hv hrun (hst.own_fence hp hw ho hos hs hd hsource hfree)
  · obtain ⟨w₃, hrun', -, hst, -⟩ := prepare_open (w := { w' with events := events' }) hw' hp' (hup ho') hos'.not_file
    cases hrun.symm.trans hrun'
    exact hst.clear hp' hclean hlinks hnames' hv' hrun (hst.own_fence hp' hw' ho' hos' hs hd' hsource hfree')

/-- In one and the same tree, in which the parent of the output leads nowhere. -/
theorem build_alike_unreached (hl : w.files.at? l ≠ some .directory)
    (hfree : ∀ x target, loc <+: x → w.files.at? x ≠ some (.link target))
    (hsame : ∀ x, w'.files.at? x = w.files.at? x) :
    EndAlike True (fun w₂ w₂' => ∀ cwd, treeAt w₂'.files cwd plan.output = treeAt w₂.files cwd plan.output) Eq
      (build options w) (build options w') := by
  obtain ⟨events, rfl⟩ := validate_tells hv
  obtain ⟨events', rfl⟩ := validate_tells hv'
  have hw₁ : ({ w with events := events } : World).files.WellFormed := hw
  have hw₁' : ({ w' with events := events' } : World).files.WellFormed := hw'
  have hnone : ∀ {fs : FileSystem}, Placed fs plan.output l name → fs.at? l ≠ some .directory → ∀ d, ¬ fs.Reaches l d := by
    intro fs hp hl d hr
    obtain ⟨rfl, -⟩ := hp.ready d hr
    exact hl hr.directory
  have hclear : ∀ {w w₂ : World} {events : List Event}, w.files.WellFormed → Placed w.files plan.output l name →
      w.files.at? l ≠ some .directory → validate options w = .ok plan { w with events := events } →
      w.files.at? loc = some .directory → (∀ x target, loc <+: x → w.files.at? x ≠ some (.link target)) →
      ExpandsToNames options w → prepare plan true { w with events := events } = .ok () w₂ →
      Clear (fun _ => False) (plan.limits true) maxNesting (plan.inner options) plan.source plan.staging w₂ := by
    intro w w₂ events hw hp hl hv hd hfree hnames hrun
    rcases prepare_unreached (w := { w with events := events }) hw hp w.cwd (hnone hp hl) with
      ⟨w₃, hrun', ⟨dir, hst⟩, -⟩ | ⟨e, w₃, hrun', -⟩
    · cases hrun.symm.trans hrun'
      refine hst.clear hp hclean hlinks hnames hv hrun (hst.fence hw hs hd (fun _ _ h => h) id nofun fun y s target hy hat => ?_)
      exact hfree _ target (hy.trans (List.prefix_append _ _)) hat
    · cases hrun.symm.trans hrun'
  have hprepare : EndAlike True (fun w₂ w₂' => ∃ dir, Prepared (fun _ => False) w.files w'.files l name dir w₂ w₂')
      (fun _ _ => True) (prepare plan true { w with events := events }) (prepare plan true { w' with events := events' }) :=
    prepare_unreached_alike hw₁ hw₁' (fun x _ => hsame x) hcwd hp hp' (hnone hp hl) fun _ _ => id
  refine build_alike hw hw' hclean hlinks hv hv' hp hp' hprepare
    (fun w₂ hrun => hclear hw hp hl hv hd hfree hnames hrun) (fun w₂ hrun => ?_) hnames
  refine hclear hw' hp' (by rwa [hsame]) hv' hd' (fun x target hx => ?_) hnames' hrun
  rw [hsame]
  exact hfree x target hx

end

end SiteTree.Build
