import SiteTree.Proofs.Build.Staging

/-!
How a clean build ends: in front of the rendering nothing has changed, a failure in it leaves no
staging directory, and only an output that is a file keeps what was rendered from being published.
-/

namespace SiteTree.Build

open SiteTree.Action FileSystem SiteTree.Path

variable {options : Options} {plan : Plan} {start fs fs' : FileSystem} {w w' : World}
    {l : List String} {name : String}
  {cwd dir x : Location} {p : Path}

/-- Something stands at a path, be it a link. -/
def Stands (fs : FileSystem) (cwd : Location) (p : Path) : Prop :=
  ∃ loc node, fs.resolve cwd false p = .ok (.found loc node)

/-- A file stands at a path, and no link to one. -/
def IsFileAt (fs : FileSystem) (cwd : Location) (p : Path) : Prop :=
  ∃ loc bytes, fs.resolve cwd false p = .ok (.found loc (.file bytes))

theorem isFileAt_iff {s : String} (hr : fs.Reaches l dir) (hp : p.Spells (l ++ [s])) (hs : IsStep s)
    (ho : p.IsOpen) :
    IsFileAt fs cwd p ↔ ∃ bytes, fs.at? (dir ++ [s]) = some (.file bytes) := by
  rw [IsFileAt, resolve_step hr hp hs ho, placeIn]
  cases fs.at? (dir ++ [s]) <;> simp

theorem stands_iff {s : String} (hr : fs.Reaches l dir) (hp : p.Spells (l ++ [s])) (hs : IsStep s)
    (ho : p.IsOpen) :
    Stands fs cwd p ↔ fs.at? (dir ++ [s]) ≠ none := by
  rw [Stands, resolve_step hr hp hs ho, placeIn]
  cases fs.at? (dir ++ [s]) <;> simp

theorem IsFileAt.stands (h : IsFileAt fs cwd p) : Stands fs cwd p := by
  obtain ⟨loc, bytes, hr⟩ := h
  exact ⟨loc, _, hr⟩

theorem not_stands_of_unreached {s : String} (hp : p.Spells (l ++ [s])) (hs : IsStep s)
    (hnone : ∀ d, ¬ fs.Reaches l d) :
    ¬ Stands fs cwd p := by
  rintro ⟨loc, node, hr⟩
  obtain ⟨d, m, hd, -⟩ := place_of_resolve hp hs hr
  exact hnone d hd

/-- How preparing ends: with the staging directory made, or with nothing changed. -/
inductive PrepareEnds (plan : Plan) (w : World) (l : List String) (name : String) (cwd : Location) : Prop
  | staged (w' : World) (h : prepare plan true w = .ok () w') (hst : ∃ dir, Staged w.files w'.files l name dir)
      (hfile : ¬ IsFileAt w.files cwd plan.staging)
  | refused (e : Failure) (w' : World) (h : prepare plan true w = .error e w') (hsame : w'.files = w.files)
      (hleft : IsFileAt w.files cwd plan.staging ∨ ¬ Stands w.files cwd plan.staging)

theorem prepare_of_clear (hc : clear plan.staging w = .ok () w')
    (hm : w'.files.makeDirectories w'.cwd plan.staging = .ok fs) :
    prepare plan true w = .ok () { w' with files := fs, events := started plan :: w'.events } :=
  (bind_ok hc).trans (bind_ok (makeDirectories_made hm))

theorem prepare_staged (hw : w.files.WellFormed) (hp : Placed w.files plan.output l name) (cwd : Location)
    (hr : w.files.Reaches l l) (hfile : ∀ bytes, w.files.at? (l ++ [hiddenName name]) ≠ some (.file bytes))
    (hc : clear plan.staging w = .ok () w') (hwf : w'.files.WellFormed)
    (hsame : ∀ x, ¬ l ++ [hiddenName name] <+: x → w'.files.at? x = w.files.at? x)
    (hnone : ∀ x, l ++ [hiddenName name] <+: x → w'.files.at? x = none) : PrepareEnds plan w l name cwd := by
  obtain ⟨hspells, hopen⟩ : plan.staging.Spells (l ++ [hiddenName name]) ∧ plan.staging.IsOpen := hp.staging
  obtain ⟨hm, hst⟩ := staged_of_ready w'.cwd hw hp hr hwf hsame hnone
  refine .staged _ (prepare_of_clear hc hm) ⟨l, hst⟩ ?_
  rw [isFileAt_iff hr hspells hp.hidden.isStep hopen]
  rintro ⟨bytes, hb⟩
  exact hfile bytes hb

/-- In a directory that is there, only a file at the staging directory is in the way. -/
theorem prepare_reached (hw : w.files.WellFormed) (hp : Placed w.files plan.output l name) (cwd : Location)
    (hr : w.files.Reaches l l) : PrepareEnds plan w l name cwd := by
  obtain ⟨hspells, hopen⟩ : plan.staging.Spells (l ++ [hiddenName name]) ∧ plan.staging.IsOpen := hp.staging
  have hstep := hp.hidden.isStep
  have hc := clear_eq plan.staging w
  cases hat : w.files.at? (l ++ [hiddenName name]) with
  | none =>
      rw [removeDirectory_vacant hr hspells hstep hat] at hc
      refine prepare_staged hw hp cwd hr (by simp [hat]) hc hw (fun _ _ => rfl) fun x hx => ?_
      by_cases he : x = l ++ [hiddenName name]
      · rw [he, hat]
      · exact hw.at?_below (by simp [hat]) hx he
  | some node =>
      by_cases hfile : node.IsFile
      · obtain ⟨bytes, rfl⟩ := hfile
        rw [removeDirectory_file hr hspells hstep hopen hat] at hc
        exact .refused _ _ (bind_error hc) rfl (.inl ((isFileAt_iff hr hspells hstep hopen).2 ⟨bytes, hat⟩))
      · rw [removeDirectory_other hr hspells hstep hopen hat hfile] at hc
        refine prepare_staged hw hp cwd hr ?_ hc (hw.remove _) (fun x hx => at?_remove_apart hx) fun x hx => ?_
        · rintro bytes hb
          rw [hat] at hb
          exact hfile ⟨bytes, Option.some.inj hb⟩
        · exact at?_remove_below hx (by rintro rfl; simp at hx)

/-- Where the parent leads nowhere, the levels above the staging directory are made with it. -/
theorem prepare_unreached (hw : w.files.WellFormed) (hp : Placed w.files plan.output l name) (cwd : Location)
    (hnone : ∀ d, ¬ w.files.Reaches l d) : PrepareEnds plan w l name cwd := by
  have hspells : plan.staging.Spells (l ++ [hiddenName name]) := hp.staging.1
  have hstands : ¬ Stands w.files cwd plan.staging := not_stands_of_unreached hspells hp.hidden.isStep hnone
  obtain ⟨cause, hres⟩ := resolve_of_unreached hspells hp.hidden.isStep hnone w.cwd false
  by_cases hcause : cause = .missing
  · have hc := clear_missing (hcause ▸ hres)
    rcases makeDirectories_spelled hw w.cwd hspells hp.noUp_hidden with
      ⟨cause, hm⟩ | ⟨-, loc, hr⟩ | ⟨files, loc, hm, hmade⟩
    · exact .refused _ w ((bind_ok hc).trans (bind_error (makeDirectories_refused hm))) rfl (.inr hstands)
    · obtain ⟨d, hd⟩ := reaches_of_step hr.walk_eq hp.hidden.1
      exact absurd hd (hnone d)
    · obtain ⟨dir, hst⟩ := staged_of_made hw hp hnone hmade
      exact .staged _ (prepare_of_clear hc hm) ⟨dir, hst⟩ fun hf => hstands hf.stands
  · exact .refused _ _ (bind_error (clear_refused hres hcause)) rfl (.inr hstands)

theorem prepare_cases (hw : w.files.WellFormed) (hp : Placed w.files plan.output l name) (cwd : Location) :
    PrepareEnds plan w l name cwd := by
  by_cases hreach : ∃ d, w.files.Reaches l d
  · obtain ⟨d, hr⟩ := hreach
    obtain ⟨rfl, -⟩ := hp.ready d hr
    exact prepare_reached hw hp cwd hr
  · exact prepare_unreached hw hp cwd fun d hd => hreach ⟨d, hd⟩

/-- The staging directory is now the output; all else is as it was. -/
structure Published (fs fs' : FileSystem) (dir : Location) (name : String) : Prop where
  outside : ∀ x, ¬ dir ++ [hiddenName name] <+: x → ¬ dir ++ [name] <+: x → fs'.at? x = fs.at? x
  moved : ∀ x, fs'.at? (dir ++ [name] ++ x) = fs.at? (dir ++ [hiddenName name] ++ x)
  gone : fs'.at? (dir ++ [hiddenName name]) = none
  wellFormed : fs'.WellFormed

section

variable (hw : start.WellFormed) (hp : Placed start plan.output l name) (hst : Staged start fs l name dir)
    (hc : Confined (l ++ [hiddenName name]) (dir ++ [hiddenName name]) fs w.files)

include hp hst hc

/-- Once nothing is left at the output, the staging directory is moved there. -/
theorem publish_of_clear (hclear : clear plan.output w = .ok () w')
    (hkeep : ∀ x, ¬ dir ++ [name] <+: x → w'.files.at? x = w.files.at? x)
    (hvacant : w'.files.at? (dir ++ [name]) = none) (hwf : w'.files.WellFormed) :
    ∃ w'', publish plan.staging plan.output w = .ok () w'' ∧ Published w.files w''.files dir name := by
  have hspells : plan.staging.Spells (l ++ [hiddenName name]) := hp.staging.1
  have hreach : w'.files.Reaches l dir := hst.reaches fun x hs ho => (hkeep x ho).trans (hc.within x hs)
  have hbelow : ∀ x, w'.files.at? (dir ++ [hiddenName name] ++ x) = w.files.at? (dir ++ [hiddenName name] ++ x) :=
    fun x => hkeep _ (not_prefix_sibling (hiddenName_ne name) (List.prefix_append _ _))
  have hstaging : w'.files.at? (dir ++ [hiddenName name]) = some .directory := by
    simpa [hc.directory] using hbelow []
  have hold : w'.files.locate w'.cwd plan.staging = .ok (.found (dir ++ [hiddenName name]) .directory) := by
    rw [locate_step hreach hspells hp.hidden.isStep, placeIn, hstaging]
  have hnew : w'.files.locate w'.cwd plan.output = .ok (.vacant dir name false) := by
    rw [locate_step hreach hp.spells hp.isName.isStep, placeIn, hvacant]
  have hren := rename_directory hold hnew (target_snd hspells hp.hidden.isStep)
    (target_snd hp.spells hp.isName.isStep) not_append_isPrefix
  have hchange := change_eq (fun fs cwd => fs.rename cwd plan.staging plan.output) (.write plan.output) w'
  rw [hren] at hchange
  refine ⟨_, (bind_ok hclear).trans hchange, fun x hs ho => ?_, fun x => ?_, ?_, ?_⟩
  · exact (at?_move_apart hs ho).trans (hkeep x ho)
  · exact (at?_move_new (by simp) (by simp) x).trans (hbelow x)
  · exact at?_move_old List.prefix_rfl (by simp) (not_prefix_sibling (hiddenName_ne name) List.prefix_rfl)
  · exact hwf.move (by simp) hreach.directory hp.isName not_append_isPrefix

include hw

/-- Publishing is refused by an output that is a file, and by nothing else. -/
theorem publish_cases :
    (∃ w', publish plan.staging plan.output w = .error (.write plan.output .notDirectory) w' ∧ w'.files = w.files ∧
      ∃ bytes, start.at? (dir ++ [name]) = some (.file bytes)) ∨
    ∃ w', publish plan.staging plan.output w = .ok () w' ∧ Published w.files w'.files dir name ∧
      ∀ bytes, start.at? (dir ++ [name]) ≠ some (.file bytes) := by
  have hsame : w.files.at? (dir ++ [name]) = start.at? (dir ++ [name]) :=
    (hc.within _ (not_prefix_sibling (hiddenName_ne name).symm List.prefix_rfl)).trans (hst.kept _ List.prefix_rfl)
  have hr : w.files.Reaches l dir := hst.reaches fun x hs _ => hc.within x hs
  have hclear := clear_eq plan.output w
  cases hat : w.files.at? (dir ++ [name]) with
  | none =>
      rw [removeDirectory_vacant hr hp.spells hp.isName.isStep hat] at hclear
      obtain ⟨w', hpub, hpublished⟩ := publish_of_clear hp hst hc hclear (fun _ _ => rfl) hat hc.wellFormed
      exact .inr ⟨w', hpub, hpublished, by simp [← hsame, hat]⟩
  | some node =>
      have ho : plan.output.IsOpen := by
        rcases hst.before with hb | ⟨-, hb⟩
        · exact (hp.ready dir hb).2
        · have hd := hw.parent (show (start.at? (dir ++ [name])).isSome by rw [← hsame, hat]; rfl)
          rw [hb] at hd
          cases hd
      by_cases hfile : node.IsFile
      · obtain ⟨bytes, rfl⟩ := hfile
        rw [removeDirectory_file hr hp.spells hp.isName.isStep ho hat] at hclear
        exact .inl ⟨_, bind_error hclear, rfl, bytes, hsame.symm.trans hat⟩
      · rw [removeDirectory_other hr hp.spells hp.isName.isStep ho hat hfile] at hclear
        obtain ⟨w', hpub, hpublished⟩ := publish_of_clear hp hst hc hclear (fun x hx => at?_remove_apart hx)
          (at?_remove_below List.prefix_rfl (by simp)) (hc.wellFormed.remove _)
        refine .inr ⟨w', hpub, hpublished, ?_⟩
        rintro bytes hb
        rw [← hsame, hat] at hb
        exact hfile ⟨bytes, Option.some.inj hb⟩

end

/-- The three ends of a clean build that has begun to render. -/
inductive CarryOutEnds (options : Options) (plan : Plan) (start : FileSystem) (w : World) (dir : Location)
    (name : String) : Prop
  | failed (e : Failure) (w₁ w' : World) (hproduce : produce (plan.limits true) (plan.inner options) w = .error e w₁)
      (hrun : carryOut plan options w = .error e w')
      (hkeep : ∀ x, ¬ dir ++ [hiddenName name] <+: x → w'.files.at? x = w.files.at? x)
      (hgone : w'.files.at? (dir ++ [hiddenName name]) = none)
  | refused (hashed : Asset.Renames) (w₁ : World) (e : Failure) (w' : World)
      (hproduce : produce (plan.limits true) (plan.inner options) w = .ok hashed w₁)
      (hrun : carryOut plan options w = .error e w')
      (hkeep : ∀ x, ¬ dir ++ [hiddenName name] <+: x → w'.files.at? x = w.files.at? x)
      (hstays : w'.files.at? (dir ++ [hiddenName name]) = some .directory)
      (hfile : ∃ bytes, start.at? (dir ++ [name]) = some (.file bytes))
  | published (hashed : Asset.Renames) (w₁ w' : World)
      (hproduce : produce (plan.limits true) (plan.inner options) w = .ok hashed w₁)
      (hrun : carryOut plan options w = .ok hashed w') (hpublished : Published w₁.files w'.files dir name)
      (hkeep : ∀ x, ¬ dir ++ [hiddenName name] <+: x → w₁.files.at? x = w.files.at? x)
      (hfile : ∀ bytes, start.at? (dir ++ [name]) ≠ some (.file bytes))

theorem carryOut_cases (hw : start.WellFormed) (hp : Placed start plan.output l name)
    (hst : Staged start w.files l name dir) (hclean : options.clean = true)
    (hplain : Walk.MeetsPlain (plan.limits options.clean) maxNesting (plan.inner options) plan.source
      (plan.root options.clean) w) : CarryOutEnds options plan start w dir name := by
  obtain ⟨hspells, hopen⟩ : plan.staging.Spells (l ++ [hiddenName name]) ∧ plan.staging.IsOpen := hp.staging
  have hroot := inner_outputRoot plan hclean
  have hproduce : Confined (l ++ [hiddenName name]) (dir ++ [hiddenName name]) w.files
      ((produce (plan.limits true) (plan.inner options)).after w).files := by
    rw [hclean] at hplain
    refine produce_keeps (by rwa [hroot]) hst.confined ?_
    rw [hroot]
    exact hplain
  cases hrun : produce (plan.limits true) (plan.inner options) w with
  | error e w₁ =>
      obtain ⟨w', hbuild, hfiles⟩ := buildClean_error hrun plan.output plan.staging
      rw [← carryOut_clean plan hclean] at hbuild
      rw [after_error hrun] at hproduce
      have hr : w₁.files.Reaches l dir := hst.reaches fun x hs _ => hproduce.within x hs
      rw [removeDirectory_other hr hspells hp.hidden.isStep hopen hproduce.directory nofun] at hfiles
      refine .failed e w₁ w' hrun hbuild (fun x hx => ?_) ?_
      · rw [hfiles]
        exact (at?_remove_apart hx).trans (hproduce.within x hx)
      · rw [hfiles]
        exact at?_remove_below List.prefix_rfl (by simp)
  | ok hashed w₁ =>
      obtain ⟨events, hbuild⟩ := buildClean_ok hrun plan.output plan.staging
      rw [← carryOut_clean plan hclean] at hbuild
      rw [after_ok hrun] at hproduce
      rcases publish_cases (w := { w₁ with events := events }) hw hp hst hproduce with
        ⟨w', hpub, hfiles, hfile⟩ | ⟨w', hpub, hpublished, hfile⟩
      · refine .refused hashed w₁ _ w' hrun (hbuild.trans (bind_error hpub)) (fun x hx => ?_) ?_ hfile
        · rw [hfiles]
          exact hproduce.within x hx
        · rw [hfiles]
          exact hproduce.directory
      · exact .published hashed w₁ w' hrun (hbuild.trans (bind_ok hpub)) hpublished hproduce.within hfile

end SiteTree.Build
