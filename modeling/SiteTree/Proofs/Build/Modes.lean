import SiteTree.Proofs.Build.Own

/-!
The two modes of a build. Where nothing stands at the output yet, rendering straight into it and publishing what has been
rendered beside it come to the same.
-/

namespace SiteTree.Build

open SiteTree.Action FileSystem SiteTree.Path Walk

variable {options : Options} {plan : Plan} {start : FileSystem} {w w' w₁ w₂ : World} {l : List String} {loc y : Location}
  {name : String} {bytes : ByteArray} {p : Path}

/-- The output as it is before anything is rendered straight into it. -/
def outputGround (l : List String) (name : String) (w : World) : Ground := ⟨l ++ [name], l ++ [name], w.files⟩

theorem not_longer_isPrefix {x : Location} (hx : x ≠ []) : ¬ loc ++ x <+: loc := by
  intro hc
  rw [← List.append_nil loc, List.append_assoc, List.prefix_append_right_inj] at hc
  exact hx (List.prefix_nil.1 hc)

/-- A clean walk passes over the staging directory too, which no other walk can come to. -/
theorem Placed.limits_fit (hp : Placed start plan.output l name) :
    Limits.Fit (outputGround l name w) (fun x => ¬ Outside plan.output x) (plan.limits true) (plan.limits false) := by
  constructor
  · intro root q h
    simp only [Limits.passes, Plan.limits, List.any_cons, List.any_nil, Bool.or_false, Bool.or_eq_true, if_true,
      Bool.false_eq_true, if_false] at h ⊢
    exact h.imp .inl id
  · intro w₁ root q m hG hq havoid h
    simp only [Limits.passes, Plan.limits, List.any_cons, List.any_nil, Bool.or_false, Bool.or_eq_false_iff, if_true,
      Bool.false_eq_true, if_false] at h ⊢
    refine ⟨⟨h.1, Bool.eq_false_iff.2 fun halike => ?_⟩, h.2⟩
    obtain rfl : l ++ [hiddenName name] = m := (hp.staging.1.alike_iff hq).1 halike
    have hd : w₁.files.at? l = some .directory := hG.wellFormed.directory_above hG.directory (List.prefix_append _ _)
    have hmem : l ++ [hiddenName name] ∈ w₁.files.way (maxLinks + 1) [] (l.filter (· ≠ "") ++ [hiddenName name]) :=
      Leads.way_append (hG.wellFormed.reaches_self hd) hp.hidden.isStep
    rw [hp.filter] at hmem
    refine havoid _ (mem_wayTo_of_spells hq hmem) (not_outside.2 (.inr ?_))
    rw [hp.settled_eq.2]

section

variable (hw : w.files.WellFormed) (hp : Placed w.files plan.output l name)

include hw hp

theorem prepare_output_open (ho : w.files.OpenTo (l ++ [name])) : ∃ w₁, prepare plan false w = .ok () w₁ ∧
    w₁.cwd = w.cwd ∧ w₁.files.WellFormed ∧
      ∀ x, w₁.files.at? x = if x <+: l ++ [name] then some .directory else w.files.at? x := by
  obtain ⟨fs, hmake, hwf, hat⟩ := ho.makeDirectories hw w.cwd hp.spells (hp.names_append hp.isName)
  exact ⟨_, prepare_in_place_made hmake, rfl, hwf, hat⟩

/-- Below a file nothing can be prepared, in either mode. -/
theorem prepare_blocked (hy : w.files.at? y = some (.file bytes)) (hyl : y <+: l) (clean : Bool) :
    ∃ e w₁, prepare plan clean w = .error e w₁ := by
  cases clean with
  | false =>
      obtain ⟨⟨cause, fs⟩, hmake⟩ : ∃ e, w.files.makeDirectories w.cwd plan.output = .error e :=
        makeDirectories_blocked hw hp.spells hy (hyl.trans (List.prefix_append _ _))
      exact ⟨_, _, prepare_in_place_refused hmake⟩
  | true =>
      rcases prepare_cases hw hp w.cwd with ⟨w₁, -, ⟨dir, hst⟩, -⟩ | ⟨e, w₁, hrun, -⟩
      · exfalso
        rcases hst.before with hb | ⟨-, hb⟩
        · exact not_reaches_of_file hw hy hyl hb
        · have hapart : ¬ dir ++ [hiddenName name] <+: y := by
            rintro ⟨r, rfl⟩
            rw [List.append_assoc, at?_below_vacant hw hb] at hy
            cases hy
          have hr : w₁.files.Reaches l dir := hst.reaches fun _ _ _ => rfl
          rcases hst.grown y hapart with he | ⟨he, -⟩
          · exact not_reaches_of_file hst.confined.wellFormed (he.trans hy) hyl hr
          · cases he.symm.trans hy
      · exact ⟨e, w₁, hrun⟩

end

section

variable (hw : w.files.WellFormed) (hp : Placed w.files plan.output l name) (hst : Staged w.files w₁.files l name l)
  (hat₁ : ∀ x, w₁.files.at? x = if x <+: l ++ [hiddenName name] then some .directory
    else if l ++ [hiddenName name] <+: x then none else w.files.at? x)
  (hw₂ : w₂.files.WellFormed)
  (hat₂ : ∀ x, w₂.files.at? x = if x <+: l ++ [name] then some .directory else w.files.at? x)
  (hvacant : w.files.at? (l ++ [name]) = none)

include hw₂ hat₂ hvacant hw

theorem outputGround_holds : (outputGround l name w₂).Holds w₂.files := by
  have hd : w₂.files.at? (l ++ [name]) = some .directory := by rw [hat₂, if_pos List.prefix_rfl]
  have hleads : w₂.files.Leads false (maxLinks + 1) [] (l ++ [name]) (.found (l ++ [name]) .directory) :=
    hw₂.leads_down hd nofun
  show Confined (l ++ [name]) (l ++ [name]) w₂.files w₂.files
  refine confined_of_fresh hw₂ hleads ?_
  rintro x ⟨r, rfl⟩ hne
  rw [hat₂, if_neg (not_longer_isPrefix (by simpa using hne)), at?_below_vacant hw hvacant]

include hp hst hat₁

/-- Both directories to render into are empty, and off them the trees are the same. -/
theorem modes_beside (hcwd : w₂.cwd = w₁.cwd) : Beside (stagingGround l name l w₁) (outputGround l name w₂)
    (fun x => ¬ Outside plan.output x) w₁ w₂ := by
  obtain ⟨hout, hstaging⟩ : settled plan.output = l ++ [name] ∧ settled (stagingPath plan.output) = l ++ [hiddenName name] :=
    hp.settled_eq
  have hground := outputGround_holds hw hw₂ hat₂ hvacant
  refine ⟨⟨hst.confined, hground, fun x => ?_, fun x hx => ?_, .inr fun x => ⟨?_, ?_⟩⟩, hcwd⟩
  · show w₂.files.at? (l ++ [name] ++ x) = w₁.files.at? (l ++ [hiddenName name] ++ x)
    rw [hat₁, hat₂, at?_below_vacant hw hvacant]
    by_cases hx : x = []
    · subst hx
      rw [List.append_nil, List.append_nil, if_pos List.prefix_rfl, if_pos List.prefix_rfl]
    · rw [if_neg (not_longer_isPrefix hx), if_neg (not_longer_isPrefix hx), if_pos (List.prefix_append _ _)]
  · obtain ⟨hx, hs⟩ := not_not.1 hx
    rw [hout] at hx
    rw [hstaging] at hs
    have hup : ∀ {s : String}, ¬ l ++ [s] <+: x → (x <+: l ++ [s] ↔ x <+: l) := fun hne =>
      ⟨fun hc => (List.prefix_concat_iff.1 hc).resolve_left (by rintro rfl; exact hne List.prefix_rfl),
        fun hc => hc.trans (List.prefix_append _ _)⟩
    simp only [hat₁, hat₂, hup hx, hup hs, if_neg hs]
  · exact not_outside.2 (.inr (hstaging ▸ List.prefix_append _ _))
  · exact not_outside.2 (.inl (hout ▸ List.prefix_append _ _))

omit hw hst hat₁ hw₂ hvacant

/-- Rendering straight into the output there is no staging directory to be come to. -/
theorem output_fence (hfree : w.files.LinkFree []) (hnone : w.files.at? (l ++ [hiddenName name]) = none)
    (hs : plan.source.Spells loc) (hloc : ∀ s ∈ loc, IsName s) (hsource : Outside plan.output loc) :
    Fence (fun x => ¬ Outside plan.output x) (plan.limits false) plan.source loc (outputGround l name w₂) := by
  obtain ⟨hout, hstaging⟩ : settled plan.output = l ++ [name] ∧ settled (stagingPath plan.output) = l ++ [hiddenName name] :=
    hp.settled_eq
  refine ⟨hs, hloc, own_below, not_not.2 hsource, fun rel s hn hrel hin ⟨fs, hfs, hsome⟩ => ?_, fun y s target _ hat => ?_⟩
  · rcases own_root (not_not.1 hrel) hin with he | he
    · rw [hout, List.append_assoc] at he
      rw [← descend_append]
      exact passes_of_skip (by simp [Plan.limits]) (he ▸ hp.spells) hs hn
    · exfalso
      have happart : ¬ l ++ [name] <+: l ++ [hiddenName name] := not_prefix_sibling (hiddenName_ne name) List.prefix_rfl
      have hwithin : fs.at? (l ++ [hiddenName name]) = w₂.files.at? (l ++ [hiddenName name]) := hfs.within _ happart
      have hnot : ¬ l ++ [hiddenName name] <+: l ++ [name] :=
        not_prefix_sibling (hiddenName_ne name).symm List.prefix_rfl
      rw [he, hstaging, hwithin, hat₂, if_neg hnot, hnone] at hsome
      cases hsome
  · replace hat : w₂.files.at? (y ++ [s]) = some (.link target) := hat
    rw [hat₂] at hat
    split at hat
    · cases hat
    · exact absurd hat (hfree _ target List.nil_prefix)

end

/-- A build that renders straight into the output. -/
def inPlace (options : Options) : Options := { options with clean := false }

/-- Once both modes have begun, what one publishes is what the other renders in place. -/
theorem carryOut_modes (hw : w.files.WellFormed) (hclean : options.clean = true) (hlinks : options.links = [])
    (hp : Placed w.files plan.output l name) (hst : Staged w.files w₁.files l name l)
    (hvacant : w.files.at? (l ++ [name]) = none) (hsource : ∃ l, plan.source.Spells l)
    (hbeside : Beside (stagingGround l name l w₁) (outputGround l name w₂) (fun x => ¬ Outside plan.output x) w₁ w₂)
    (hc : Clear (fun x => ¬ Outside plan.output x) (plan.limits true) maxNesting (plan.inner options) plan.source
      plan.staging w₁)
    (hc' : Clear (fun x => ¬ Outside plan.output x) (plan.limits false) maxNesting (plan.inner (inPlace options))
      plan.source plan.output w₂)
    (honly : MeetsOnly IsName (plan.limits true) maxNesting (plan.inner options) plan.source plan.staging w₁) :
    EndAlike False (fun w₃ w₃' => ∀ cwd, treeAt w₃'.files cwd plan.output = treeAt w₃.files cwd plan.output) Eq
      (carryOut plan options w₁) (carryOut plan (inPlace options) w₂) := by
  have hroot := inner_outputRoot plan hclean
  have hproduce : EndAlike False (Beside (stagingGround l name l w₁) (outputGround l name w₂)
      (fun x => ¬ Outside plan.output x)) Eq (produce (plan.limits true) (plan.inner options) w₁)
      (produce (plan.limits false) (plan.inner (inPlace options)) w₂) := by
    refine produce_alike hp.limits_fit ?_ rfl hbeside (hroot ▸ hc) hc' (hroot ▸ honly)
    rw [hroot]
    refine ⟨rfl, rfl, hlinks, hlinks, hsource, nofun, ?_, ?_, False.elim⟩
    · rw [List.append_nil]
      exact hp.staging.1
    · rw [List.append_nil]
      exact hp.spells
  have hplace : carryOut plan (inPlace options) = produce (plan.limits false) (plan.inner (inPlace options)) := rfl
  rw [carryOut_clean plan hclean, hplace]
  generalize hrun : produce (plan.limits true) (plan.inner options) w₁ = r at hproduce
  generalize produce (plan.limits false) (plan.inner (inPlace options)) w₂ = r' at hproduce ⊢
  cases hproduce with
  | error he =>
      obtain ⟨w₃, hbuild, -⟩ := buildClean_error hrun plan.output plan.staging
      rw [hbuild]
      exact .error False.elim
  | @ok hashed hashed' w₃ w₃' hv h₃ =>
      subst hv
      obtain ⟨events, hbuild⟩ := buildClean_ok hrun plan.output plan.staging
      rw [hbuild]
      have hheld : Confined (l ++ [hiddenName name]) (l ++ [hiddenName name]) w₁.files w₃.files := h₃.files.left
      have hheld' : Confined (l ++ [name]) (l ++ [name]) w₂.files w₃'.files := h₃.files.right
      rcases publish_cases (w := { w₃ with events := events }) hw hp hst hheld with
        ⟨w₄, -, -, bytes, hfile⟩ | ⟨w₄, hpub, hpublished, -⟩
      · cases hvacant.symm.trans hfile
      · rw [bind_ok hpub]
        have hr : w₄.files.Reaches l l := hst.reaches fun x hs ho => (hpublished.outside x hs ho).trans (hheld.within x hs)
        have hd : w₃'.files.at? l = some .directory :=
          hheld'.wellFormed.directory_above hheld'.directory (List.prefix_append _ _)
        refine .ok rfl fun cwd => ?_
        rw [treeAt_published hpublished hr hp.spells hp.isName hheld.directory,
          treeAt_of_directory (hheld'.wellFormed.reaches_self hd) hp.spells hp.isName.isStep hheld'.directory]
        exact funext h₃.files.mirrored

theorem vacant_of_not_stands {fs : FileSystem} {cwd : Location} {s : String} (hw : fs.WellFormed) (hp : p.Spells (l ++ [s]))
    (hs : IsName s) (ho : fs.at? l = some .directory → p.IsOpen) (h : ¬ Stands fs cwd p) : fs.at? (l ++ [s]) = none := by
  by_contra hsome
  have hd := hw.parent (Option.isSome_iff_ne_none.2 hsome)
  exact h ((stands_iff (hw.reaches_self hd) hp hs.isStep (ho hd)).2 hsome)

theorem Placed.outside_of_vacant (hp : Placed w.files p l name) (hw : w.files.WellFormed)
    (hnone : w.files.at? (l ++ [name]) = none) (hnone' : w.files.at? (l ++ [hiddenName name]) = none)
    (hsome : w.files.at? loc ≠ none) : Outside p loc := by
  rw [Outside, hp.settled_eq.1, hp.settled_eq.2]
  constructor
  · rintro ⟨r, rfl⟩
    exact hsome (at?_below_vacant hw hnone r)
  · rintro ⟨r, rfl⟩
    exact hsome (at?_below_vacant hw hnone' r)

section

variable (hw : w.files.WellFormed) (hfree : w.files.LinkFree []) (hclean : options.clean = true) (hlinks : options.links = [])
  (hv : validate options w = .ok plan w₁) (hp : Placed w.files plan.output l name)
  (hnone : w.files.at? (l ++ [name]) = none) (hnone' : w.files.at? (l ++ [hiddenName name]) = none)

include hw hfree hclean hp hv

/-- The parent is there, or it can be made. -/
theorem modes_open (hlinks : options.links = []) (hnone : w.files.at? (l ++ [name]) = none)
    (hnone' : w.files.at? (l ++ [hiddenName name]) = none) (hnames : ExpandsToNames options w)
    (hnames' : ExpandsToNames (inPlace options) w) (ho : w.files.OpenTo l) :
    EndAlike False (fun w₂ w₃ => ∀ cwd, treeAt w₃.files cwd plan.output = treeAt w₂.files cwd plan.output) Eq
      (build options w) (build (inPlace options) w) := by
  obtain ⟨events, rfl⟩ := validate_tells hv
  have hv' : validate (inPlace options) w = .ok plan { w with events := events } := hv
  obtain ⟨hs, hd⟩ := source_of_validate hw hv
  have hsource := hp.outside_of_vacant hw hnone hnone' (by rw [hd]; exact nofun)
  have hon := ho.child (.inl hnone)
  have hos := ho.child (.inl hnone')
  obtain ⟨w₂, hrun, hcwd₂, hst, hat₂⟩ := prepare_open (w := { w with events := events }) hw hp ho hos.not_file
  obtain ⟨w₃, hrun', hcwd₃, hw₃, hat₃⟩ := prepare_output_open (w := { w with events := events }) hw hp hon
  have hclear := hst.clear hp hclean hlinks hnames hv hrun
    (hst.own_fence hp hw hon hos hs hd hsource fun x target _ _ => hfree x target List.nil_prefix)
  have hfence := output_fence hp hat₃ hfree hnone' hs (hw.isName_of_mem (by rw [hd]; rfl)) hsource
  have hground := outputGround_holds hw hw₃ hat₃ hnone
  have hclear' : Clear (fun x => ¬ Outside plan.output x) (plan.limits false) maxNesting (plan.inner (inPlace options))
      plan.source plan.output w₃ :=
    hfence.clear_root maxNesting hlinks rfl hground (Below.self hp.spells) (hnames' plan _ w₃ hv' hrun')
  have honly := hnames plan _ w₂ hv (by rwa [hclean])
  rw [hclean, Plan.root, if_pos rfl] at honly
  have hcarry := carryOut_modes hw hclean hlinks hp hst hnone ⟨_, hs⟩
    (modes_beside hw hp hst hat₂ hw₃ hat₃ hnone (hcwd₃.trans hcwd₂.symm)) hclear hclear' honly
  rw [build_of_plan hv, build_of_plan hv', hclean, bind_ok hrun]
  show EndAlike _ _ _ _ ((prepare plan false >>= _) { w with events := events })
  rw [bind_ok hrun']
  refine hcarry.bind fun hashed _ w₄ w₄' _ _ he h₄ => ?_
  subst he
  exact .ok rfl h₄

/-- Without links, only a file on the way keeps the parent from being made. -/
theorem modes_blocked {P : Prop} {T : World → World → Prop} (hP : ¬ P) (ho : ¬ w.files.OpenTo l) :
    EndAlike P T Eq (build options w) (build (inPlace options) w) := by
  obtain ⟨events, rfl⟩ := validate_tells hv
  have hv' : validate (inPlace options) w = .ok plan { w with events := events } := hv
  obtain ⟨y, node, hy, hat, hne⟩ := exists_of_not_openTo ho
  rw [build_of_plan hv, build_of_plan hv', hclean]
  cases node with
  | directory => exact absurd rfl hne
  | link target => exact absurd hat (hfree y target List.nil_prefix)
  | file bytes =>
      obtain ⟨e, w₂, hrun⟩ := prepare_blocked (w := { w with events := events }) hw hp hat hy true
      obtain ⟨e', w₂', hrun'⟩ := prepare_blocked (w := { w with events := events }) hw hp hat hy false
      rw [bind_error hrun]
      show EndAlike _ _ _ _ ((prepare plan false >>= _) { w with events := events })
      rw [bind_error hrun']
      exact .error fun h => absurd h hP

end

/-- In a tree without links, a build that only copies to a place where nothing stands ends alike in both modes. If it
succeeds, it leaves the same tree and gives the same report. -/
theorem modes_agree (hw : w.files.WellFormed) (hfree : w.files.LinkFree []) (hcwd : ∀ s ∈ w.cwd, IsName s)
    (hlinks : options.links = []) (hup : .up ∉ options.outputRoot.components)
    (hvacant : ∀ p, outputLocation w.files w.cwd options.outputRoot = .ok p →
      ¬ Stands w.files w.cwd p ∧ ¬ Stands w.files w.cwd (stagingPath p))
    (hnames : ∀ clean, ExpandsToNames { options with clean := clean } w) :
    EndAlike False (fun w₁ w₂ => ∀ p, outputLocation w.files w.cwd options.outputRoot = .ok p →
        ∀ cwd, treeAt w₂.files cwd p = treeAt w₁.files cwd p) Eq
      (build { options with clean := true } w) (build { options with clean := false } w) := by
  refine build_alike_of_plan ?_ fun plan w₁ w₁' hv hv' => ?_
  · show EndAlike False _ Eq (validate { options with clean := true } w) (validate { options with clean := true } w)
    exact .refl _ fun _ => trivial
  obtain ⟨-, -, hlocation, -⟩ := validate_ok hv
  obtain ⟨l, name, hp⟩ := placed_of_validate hw hcwd hup hv
  obtain ⟨hstands, hstands'⟩ := hvacant plan.output hlocation
  have hnone : w.files.at? (l ++ [name]) = none :=
    vacant_of_not_stands hw hp.spells hp.isName (fun hl => (hp.ready l (hw.reaches_self hl)).2) hstands
  have hnone' : w.files.at? (l ++ [hiddenName name]) = none :=
    vacant_of_not_stands hw hp.staging.1 hp.hidden (fun _ => hp.staging.2) hstands'
  by_cases ho : w.files.OpenTo l
  · have hend : EndAlike False (fun w₂ w₃ => ∀ cwd, treeAt w₃.files cwd plan.output = treeAt w₂.files cwd plan.output) Eq
        (build { options with clean := true } w) (build { options with clean := false } w) :=
      modes_open hw hfree rfl hv hp hlinks hnone hnone' (hnames true) (hnames false) ho
    refine hend.mono fun _ _ w₂ w₃ _ _ he htree => ⟨he, fun p hp' => ?_⟩
    obtain rfl : plan.output = p := Except.ok.inj (hlocation.symm.trans hp')
    exact htree
  · exact modes_blocked hw hfree rfl hv hp id ho

/-- Copies a note for each tag to a place in the source, and renames the assets. -/
def stampTags : Options := { copyTags with outputRoot := ⟨"src/out"⟩, hash := true }

theorem tagNotes_in_both_modes : ∃ report w₁ w₂, build { stampTags with clean := true } tagNotes = .ok report w₁ ∧
    build { stampTags with clean := false } tagNotes = .ok report w₂ ∧
      ∀ cwd, treeAt w₂.files cwd ⟨"/src/out"⟩ = treeAt w₁.files cwd ⟨"/src/out"⟩ := by
  have hlocation : outputLocation tagNotes.files tagNotes.cwd stampTags.outputRoot = .ok ⟨"/src/out"⟩ := by decide +kernel
  have hvacant : ∀ p, outputLocation tagNotes.files tagNotes.cwd stampTags.outputRoot = .ok p →
      ¬ Stands tagNotes.files tagNotes.cwd p ∧ ¬ Stands tagNotes.files tagNotes.cwd (stagingPath p) := by
    intro p hp
    cases hlocation.symm.trans hp
    have hfree : tagNotes.files.resolve tagNotes.cwd false ⟨"/src/out"⟩ = .ok (.vacant ["src"] "out" false) := by
      decide +kernel
    have hfree' : tagNotes.files.resolve tagNotes.cwd false (stagingPath ⟨"/src/out"⟩) =
        .ok (.vacant ["src"] ".out.staging" false) := by decide +kernel
    constructor
    · rintro ⟨loc, node, h⟩
      cases hfree.symm.trans h
    · rintro ⟨loc, node, h⟩
      cases hfree'.symm.trans h
  have hclean : ExpandsPlain { stampTags with clean := true } tagNotes := by decide +kernel
  have hinPlace : ExpandsPlain { stampTags with clean := false } tagNotes := by decide +kernel
  have hnames : ∀ clean, ExpandsToNames { stampTags with clean := clean } tagNotes := by
    rintro (_ | _)
    · exact hinPlace.names
    · exact hclean.names
  obtain ⟨report, w₁, h⟩ := succeeds_iff.1 (show succeeds (build { stampTags with clean := true }) tagNotes = true
    by decide +kernel)
  obtain ⟨w₂, h₂, htree⟩ := (modes_agree (by decide +kernel) (by decide +kernel) (by decide) rfl (by decide +kernel) hvacant
    hnames).result h
  exact ⟨report, w₁, w₂, h, h₂, htree _ hlocation⟩

end SiteTree.Build
