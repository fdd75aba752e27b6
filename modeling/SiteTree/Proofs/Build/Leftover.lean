import SiteTree.Proofs.Build.Clean

/-!
When something stands at the staging directory after a clean build: if a file stood there before,
and if what was rendered could not be published because the output is a file.
-/

namespace SiteTree.Build

open SiteTree.Action FileSystem SiteTree.Path

variable {options : Options} {plan : Plan} {start fs : FileSystem} {w w₁ : World}
    {l : List String} {name : String}
  {cwd dir : Location}

theorem Staged.isFileAt_output (hst : Staged start fs l name dir) (hw : start.WellFormed)
    (hp : Placed start plan.output l name) :
    IsFileAt start cwd plan.output ↔ ∃ bytes, start.at? (dir ++ [name]) = some (.file bytes) := by
  rcases hst.before with hb | ⟨hnone, hb⟩
  · exact isFileAt_iff hb hp.spells hp.isName.isStep (hp.ready dir hb).2
  · constructor
    · intro h
      exact absurd h.stands (not_stands_of_unreached hp.spells hp.isName.isStep hnone)
    · rintro ⟨bytes, hat⟩
      rw [hw.at?_below (by simp [hb]) (List.prefix_append _ _) (by simp)] at hat
      cases hat

theorem Staged.stands_iff {fs' : FileSystem} (hst : Staged start fs l name dir)
    (hp : Placed start plan.output l name)
    (hkeep : ∀ x, ¬ dir ++ [hiddenName name] <+: x → ¬ dir ++ [name] <+: x → fs'.at? x = fs.at? x) :
    Stands fs' cwd plan.staging ↔ fs'.at? (dir ++ [hiddenName name]) ≠ none :=
  Build.stands_iff (hst.reaches hkeep) hp.staging.1 hp.hidden.isStep hp.staging.2

/-- After a clean build something stands at the staging directory just if a file stood there
before, or if the output was a file and all was rendered. -/
theorem staging_left_iff (hw : w.files.WellFormed) (hcwd : ∀ s ∈ w.cwd, IsName s)
    (hclean : options.clean = true) (hup : .up ∉ options.outputRoot.components)
    (hplain : ExpandsPlain options w)
    (hv : validate options w = .ok plan w₁) :
    Stands ((build options).after w).files w.cwd plan.staging ↔
      IsFileAt w.files w.cwd plan.staging ∨ IsFileAt w.files w.cwd plan.output ∧
        ∃ w₂ hashed w₃, prepare plan true w₁ = .ok () w₂ ∧
          produce (plan.limits true) (plan.inner options) w₂ = .ok hashed w₃ := by
  obtain ⟨hfiles, -, -, -⟩ := validate_ok hv
  obtain ⟨l, name, hp⟩ := placed_of_validate hw hcwd hup hv
  rw [← hfiles] at hw hp ⊢
  have hrun := build_of_plan hv
  rcases prepare_cases hw hp w.cwd with ⟨w₂, hprep, ⟨dir, hst⟩, hfile⟩ | ⟨e₂, w₂, hprep, hsame, hcase⟩
  · have houtput : IsFileAt w₁.files w.cwd plan.output ↔ _ := hst.isFileAt_output hw hp
    have hplain₂ := hplain plan w₁ w₂ hv (by rw [hclean]; exact hprep)
    rw [houtput]
    rw [hclean, bind_ok hprep] at hrun
    rcases carryOut_cases hw hp hst hclean hplain₂ with
      ⟨e₃, w₃, w', hproduce, hcarry, hkeep, hgone⟩ | ⟨hashed, w₃, e₃, w', hproduce, hcarry,
        hkeep, hthere, hout⟩ |
        ⟨hashed, w₃, w', hproduce, hcarry, hpub, hkeep, hout⟩
    · -- what failed to render was removed
      rw [bind_error hcarry] at hrun
      rw [after_error hrun, hst.stands_iff hp fun x hs _ => hkeep x hs, hgone]
      refine ⟨fun h => absurd rfl h, ?_⟩
      rintro (h | ⟨-, w₄, hashed, w₅, hprep', hproduce'⟩)
      · exact absurd h hfile
      · rw [hprep] at hprep'
        cases hprep'
        rw [hproduce] at hproduce'
        cases hproduce'
    · -- what could not be published stays
      rw [bind_error hcarry] at hrun
      rw [after_error hrun, hst.stands_iff hp fun x hs _ => hkeep x hs, hthere]
      exact ⟨fun _ => .inr ⟨hout, w₂, hashed, w₃, hprep, hproduce⟩, fun _ => nofun⟩
    · -- what was published was moved away
      have hkept : ∀ x, ¬ dir ++ [hiddenName name] <+: x → ¬ dir ++ [name] <+: x →
        w'.files.at? x = w₂.files.at? x :=
        fun x hs ho => (hpub.outside x hs ho).trans (hkeep x hs)
      rw [bind_ok hcarry] at hrun
      rw [after_ok (hrun.trans rfl), hst.stands_iff hp hkept, hpub.gone]
      refine ⟨fun h => absurd rfl h, ?_⟩
      rintro (h | ⟨⟨bytes, hat⟩, -⟩)
      · exact absurd h hfile
      · exact absurd hat (hout bytes)
  · rw [hclean, bind_error hprep] at hrun
    rw [after_error hrun, hsame]
    have hnot : ¬ ∃ w₂ hashed w₃, prepare plan true w₁ = .ok () w₂ ∧
        produce (plan.limits true) (plan.inner options) w₂ = .ok hashed w₃ := by
      rintro ⟨w₂, -, -, hok, -⟩
      rw [hprep] at hok
      cases hok
    rcases hcase with hf | hn
    · exact ⟨fun _ => .inl hf, fun _ => hf.stands⟩
    · exact ⟨fun h => absurd h hn, fun h => h.elim IsFileAt.stands fun h => absurd h.2 hnot⟩

/-- A file in the source, and nothing at the output or its staging directory. -/
def firstBuild : World := ⟨⟨[(["src", "a.txt"], .file "a".toUTF8), (["src"], .directory)]⟩, [], []⟩

theorem firstBuild_leaves_nothing : ∃ plan w₁, validate (cleanBuild "src" "site") firstBuild = .ok plan w₁ ∧
    plan.output = ⟨"/site"⟩ ∧
    ¬ Stands ((build (cleanBuild "src" "site")).after firstBuild).files firstBuild.cwd plan.staging := by
  have hclean : (cleanBuild "src" "site").clean = true := rfl
  have hplain : ExpandsPlain (cleanBuild "src" "site") firstBuild := by decide +kernel
  obtain ⟨plan, w₁, hv⟩ :=
    succeeds_iff.1 (show succeeds (validate (cleanBuild "src" "site")) firstBuild = true by decide +kernel)
  have hloc : outputLocation firstBuild.files firstBuild.cwd ⟨"site"⟩ = .ok ⟨"/site"⟩ := by decide +kernel
  have ho : plan.output = ⟨"/site"⟩ := Except.ok.inj ((validate_ok hv).2.2.1.symm.trans hloc)
  refine ⟨plan, w₁, hv, ho, ?_⟩
  rw [staging_left_iff (by decide +kernel) (by decide) hclean (by decide +kernel) hplain hv, Plan.staging, ho]
  rintro (⟨loc, bytes, h⟩ | ⟨⟨loc, bytes, h⟩, -⟩)
  · cases h
  · cases h

/-- The output is a file, which is in the way of publishing. -/
def fileOutput : World :=
  ⟨⟨[(["src", "a.txt"], .file "a".toUTF8), (["src"], .directory), (["site"], .file "old".toUTF8)]⟩, [], []⟩

/-- The build fails while it publishes, and leaves its staging directory. -/
theorem build_leaves_staging : fileOutput.files.WellFormed ∧
    ExpandsPlain (cleanBuild "src" "site") fileOutput ∧
    succeeds (validate (cleanBuild "src" "site")) fileOutput = true ∧
    succeeds (build (cleanBuild "src" "site")) fileOutput = false ∧
    outputLocation fileOutput.files fileOutput.cwd ⟨"site"⟩ = .ok ⟨"/site"⟩ ∧
    Stands ((build (cleanBuild "src" "site")).after fileOutput).files
      fileOutput.cwd (stagingPath ⟨"/site"⟩) := by
  refine ⟨by decide +kernel, by decide +kernel, by decide +kernel, by decide +kernel, by decide +kernel, ?_⟩
  exact ⟨[".site.staging"], .directory, by decide +kernel⟩

end SiteTree.Build
