import SiteTree.Proofs.Asset.Beside
import SiteTree.Proofs.Build.Prepared
import SiteTree.Proofs.Build.Verbatim

/-!
Clean builds side by side. If the trees are the same off some places that neither walk looks at, the builds end
alike and leave the same tree at the output.
-/

namespace SiteTree.Build

open SiteTree.Action FileSystem SiteTree.Path Walk

variable {P : Prop} {G G' : Ground} {I : Location → Prop} {options options' : Options} {limits limits' : Limits} {plan : Plan}
  {start start' : FileSystem} {w w' w₁ w₁' : World} {l : List String} {name : String} {cwd dir : Location} {p : Path}

theorem produce_alike (hfit : Limits.Fit G' I limits limits')
    (ha : Abreast P G G' options options' options.sourceRoot options.outputRoot options'.outputRoot [])
    (hhash : options'.hash = options.hash) (hw : Beside G G' I w w')
    (hc : Clear I limits maxNesting options options.sourceRoot options.outputRoot w)
    (hc' : Clear I limits' maxNesting options' options'.sourceRoot options'.outputRoot w')
    (honly : MeetsOnly IsName limits maxNesting options options.sourceRoot options.outputRoot w) :
    EndAlike P (Beside G G' I) Eq (produce limits options w) (produce limits' options' w') := by
  rw [ha.root] at hc'
  rw [produce, produce, ha.root]
  refine (render_alike hfit maxNesting ha hc hc' honly hw).bind fun _ _ w₁ w₁' _ _ _ h₁ => ?_
  rw [hhash]
  split
  · exact Asset.runPasses_alike h₁ (by simpa using ha.spells) (by simpa using ha.spells') ha.same
  · exact .ok rfl h₁

/-- Where files are only copied, it is enough that every name is one. -/
theorem produce_keeps_inside {base : List String} {root : Location} {fs₀ : FileSystem} (hlinks : options.links = [])
    (hp : options.outputRoot.Spells base) (hw : Confined base root fs₀ w.files)
    (honly : MeetsOnly IsName limits maxNesting options options.sourceRoot options.outputRoot w) :
    Confined base root fs₀ ((produce limits options).after w).files := by
  refine bind_keeps ?_ fun _ w₁ _ hw₁ => ?_
  · exact render_keeps (D := Below base) (fun hd hs => (inside_child hd hs).below)
      (fun _ _ _ _ hnone hd hs => emit_keeps_inside hnone (inside_child hd hs)) maxNesting hlinks hw (Below.self hp) honly
  · split
    · exact Asset.runPasses_keeps hp w₁ hw₁
    · exact hw₁

theorem treeAt_published (h : Published w.files w'.files dir name) (hr : w'.files.Reaches l dir)
    (hp : p.Spells (l ++ [name])) (hs : IsName name) (hd : w.files.at? (dir ++ [hiddenName name]) = some .directory) :
    treeAt w'.files cwd p = fun x => w.files.at? (dir ++ [hiddenName name] ++ x) := by
  have hself := h.moved []
  rw [List.append_nil, List.append_nil, hd] at hself
  rw [treeAt_of_directory hr hp hs.isStep hself]
  exact funext h.moved

section

variable (hw : start.WellFormed) (hw' : start'.WellFormed) (hp : Placed start plan.output l name)
  (hp' : Placed start' plan.output l name) (hclean : options.clean = true) (hlinks : options.links = [])
  (hsource : ∃ l, plan.source.Spells l) (h : Prepared I start start' l name dir w w')
  (hc : Clear I (plan.limits true) maxNesting (plan.inner options) plan.source plan.staging w)
  (hc' : Clear I (plan.limits true) maxNesting (plan.inner options) plan.source plan.staging w')
  (honly : MeetsOnly IsName (plan.limits true) maxNesting (plan.inner options) plan.source plan.staging w)

include hw hw' hp hp' hclean hlinks hsource h hc hc' honly

/-- Once both staging directories have been made, both builds are published or neither is. -/
theorem carryOut_alike : EndAlike True (fun w₁ w₁' => ∀ cwd, treeAt w₁'.files cwd plan.output = treeAt w₁.files cwd plan.output)
    Eq (carryOut plan options w) (carryOut plan options w') := by
  have hroot := inner_outputRoot plan hclean
  have hstaging : plan.staging.Spells (l ++ [hiddenName name]) := hp.staging.1
  have hproduce : EndAlike True (Beside (stagingGround l name dir w) (stagingGround l name dir w') I) Eq
      (produce (plan.limits true) (plan.inner options) w) (produce (plan.limits true) (plan.inner options) w') := by
    refine produce_alike (.refl _ _ _) ?_ rfl h.beside (hroot ▸ hc) (hroot ▸ hc') (hroot ▸ honly)
    rw [hroot]
    refine ⟨rfl, rfl, hlinks, hlinks, hsource, nofun, ?_, ?_, fun _ => rfl⟩
    · rw [List.append_nil]
      exact hstaging
    · rw [List.append_nil]
      exact hstaging
  rw [carryOut_clean plan hclean]
  generalize hrun : produce (plan.limits true) (plan.inner options) w = r at hproduce
  generalize hrun' : produce (plan.limits true) (plan.inner options) w' = r' at hproduce
  cases hproduce with
  | error he =>
      obtain ⟨w₁, hbuild, -⟩ := buildClean_error hrun plan.output plan.staging
      obtain ⟨w₁', hbuild', -⟩ := buildClean_error hrun' plan.output plan.staging
      rw [hbuild, hbuild']
      exact .error he
  | @ok hashed hashed' w₁ w₁' hv h₁ =>
      subst hv
      obtain ⟨events, hbuild⟩ := buildClean_ok hrun plan.output plan.staging
      obtain ⟨events', hbuild'⟩ := buildClean_ok hrun' plan.output plan.staging
      rw [hbuild, hbuild']
      have hheld : Confined (l ++ [hiddenName name]) (dir ++ [hiddenName name]) w.files w₁.files := h₁.files.left
      have hheld' : Confined (l ++ [hiddenName name]) (dir ++ [hiddenName name]) w'.files w₁'.files := h₁.files.right
      rcases publish_cases (w := { w₁ with events := events }) hw hp h.staged hheld with
        ⟨w₂, hpub, -, hfile⟩ | ⟨w₂, hpub, hpublished, hfile⟩
      · rcases publish_cases (w := { w₁' with events := events' }) hw' hp' h.staged' hheld' with
          ⟨w₂', hpub', -, -⟩ | ⟨w₂', -, -, hfile'⟩
        · rw [bind_error hpub, bind_error hpub']
          exact .error fun _ => rfl
        · obtain ⟨bytes, hb⟩ := h.blocked.2 hfile
          exact absurd hb (hfile' bytes)
      · rcases publish_cases (w := { w₁' with events := events' }) hw' hp' h.staged' hheld' with
          ⟨w₂', -, -, hfile'⟩ | ⟨w₂', hpub', hpublished', -⟩
        · obtain ⟨bytes, hb⟩ := h.blocked.1 hfile'
          exact absurd hb (hfile bytes)
        · rw [bind_ok hpub, bind_ok hpub']
          have hr : w₂.files.Reaches l dir := h.staged.reaches fun x hs ho =>
            (hpublished.outside x hs ho).trans (hheld.within x hs)
          have hr' : w₂'.files.Reaches l dir := h.staged'.reaches fun x hs ho =>
            (hpublished'.outside x hs ho).trans (hheld'.within x hs)
          refine .ok rfl fun cwd => ?_
          rw [treeAt_published hpublished hr hp.spells hp.isName hheld.directory,
            treeAt_published hpublished' hr' hp.spells hp.isName hheld'.directory]
          exact funext h₁.files.mirrored

end

/-- What a clean build without links that succeeds has gone through. -/
structure Released (plan : Plan) (start : FileSystem) (l : List String) (name : String) (dir : Location) (w₁ w₂ w' : World) :
    Prop where
  prepared : prepare plan true w₁ = .ok () w₂
  staged : Staged start w₂.files l name dir
  wellFormed : w'.files.WellFormed
  reaches : w'.files.Reaches l dir
  directory : w'.files.at? (dir ++ [name]) = some .directory
  gone : w'.files.at? (dir ++ [hiddenName name]) = none
  kept : ∀ x, ¬ dir ++ [hiddenName name] <+: x → ¬ dir ++ [name] <+: x → w'.files.at? x = w₂.files.at? x

theorem build_released {report : Report} (hw : w.files.WellFormed) (hclean : options.clean = true) (hlinks : options.links = [])
    (hv : validate options w = .ok plan w₁) (hp : Placed w.files plan.output l name) (hnames : ExpandsToNames options w)
    (h : build options w = .ok report w') : ∃ dir w₂, Released plan w.files l name dir w₁ w₂ w' := by
  obtain ⟨-, dir, w₂, w₃, hprep, hst, ⟨hashed, hproduce⟩, hpub⟩ := build_finished hw hclean hv hp h
  have honly := hnames plan w₁ w₂ hv (hclean ▸ hprep)
  rw [hclean, Plan.root, if_pos rfl, ← inner_outputRoot plan hclean] at honly
  have hroot : (plan.inner options).outputRoot.Spells (l ++ [hiddenName name]) := inner_outputRoot plan hclean ▸ hp.staging.1
  have hc : Confined (l ++ [hiddenName name]) (dir ++ [hiddenName name]) w₂.files
      ((produce (plan.limits true) (plan.inner options)).after w₂).files :=
    produce_keeps_inside hlinks hroot hst.confined honly
  rw [after_ok hproduce] at hc
  have hpublished := hpub hc
  have hkept : ∀ x, ¬ dir ++ [hiddenName name] <+: x → ¬ dir ++ [name] <+: x → w'.files.at? x = w₂.files.at? x :=
    fun x hs ho => (hpublished.outside x hs ho).trans (hc.within x hs)
  have hmoved := hpublished.moved []
  rw [List.append_nil, List.append_nil] at hmoved
  exact ⟨dir, w₂, hprep, hst, hpublished.wellFormed, hst.reaches hkept, hmoved.trans hc.directory, hpublished.gone, hkept⟩

/-- Two clean builds that have the same plan end alike if what they render from the sources does not look at the places
where the trees differ. -/
theorem build_alike (hw : w.files.WellFormed) (hw' : w'.files.WellFormed) (hclean : options.clean = true)
    (hlinks : options.links = []) (hv : validate options w = .ok plan w₁) (hv' : validate options w' = .ok plan w₁')
    (hp : Placed w.files plan.output l name) (hp' : Placed w'.files plan.output l name)
    (hprepare : EndAlike True (fun w₂ w₂' => ∃ dir, Prepared I w.files w'.files l name dir w₂ w₂') (fun _ _ => True)
      (prepare plan true w₁) (prepare plan true w₁'))
    (hc : ∀ w₂, prepare plan true w₁ = .ok () w₂ →
      Clear I (plan.limits true) maxNesting (plan.inner options) plan.source plan.staging w₂)
    (hc' : ∀ w₂, prepare plan true w₁' = .ok () w₂ →
      Clear I (plan.limits true) maxNesting (plan.inner options) plan.source plan.staging w₂)
    (honly : ExpandsToNames options w) : EndAlike True
      (fun w₂ w₂' => ∀ cwd, treeAt w₂'.files cwd plan.output = treeAt w₂.files cwd plan.output) Eq
      (build options w) (build options w') := by
  rw [build_of_plan hv, build_of_plan hv', hclean]
  refine hprepare.bind fun u u' w₂ w₂' hrun hrun' _ ⟨dir, h₂⟩ => ?_
  have hsource : ∃ l, plan.source.Spells l := canonical_spells hw (validate_ok hv).2.1
  have hnames := honly plan w₁ w₂ hv (by rwa [hclean])
  rw [hclean, Plan.root, if_pos rfl] at hnames
  have hcarry := carryOut_alike hw hw' hp hp' hclean hlinks hsource h₂ (hc w₂ hrun) (hc' w₂' hrun') hnames
  refine hcarry.bind fun hashed _ w₃ w₃' _ _ he h₃ => ?_
  subst he
  exact .ok rfl h₃

end SiteTree.Build
