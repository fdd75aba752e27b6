import SiteTree.Proofs.Build.Produce
import SiteTree.Proofs.FileSystem.Linkless

/-!
What a build leaves alone in a tree without links: every file outside its output and, if it is
clean, outside its staging directory. Nothing of the staging directory is left by a clean build.
-/

namespace SiteTree.Build

open SiteTree.Action FileSystem SiteTree.Path

variable {options : Options} {plan : Plan} {w w' w₁ : World} {l m : List String} {name : String} {p : Path}
  {x : Location} {node : FileNode}

/-- The tree is one that a disk can hold, and has no links. -/
def Linkless (fs : FileSystem) : Prop := fs.WellFormed ∧ fs.LinkFree []

theorem Linkless.clear {u : Unit} (h : Linkless w.files) (hc : clear p w = .ok u w') : Linkless w'.files := by
  rcases clear_ok hc with he | ⟨loc, he⟩
  · rwa [he]
  · rw [he]
    exact ⟨h.1.remove loc, h.2.remove loc⟩

theorem clear_outside (hfree : w.files.LinkFree []) (hp : p.Spells l) (hx : ¬ settled p <+: x) :
    ((clear p).after w).files.at? x = w.files.at? x := by
  rw [clear_files]
  exact removeDirectory_outside w.cwd hfree hp (settled_eq hp ▸ hx)

theorem root_spells (hp : plan.output.Spells l) (clean : Bool) : ∃ m, (plan.root clean).Spells m := by
  cases clean with
  | false => exact ⟨l, hp⟩
  | true =>
      obtain ⟨m, name, -, hspells, -⟩ := stagingPath_spells hp
      exact ⟨_, hspells⟩

theorem makeDirectories_kept (hw : w.files.WellFormed) (p : Path) (hx : w.files.at? x = some node) :
    ((makeDirectories p).after w).files.at? x = some node := by
  rw [Action.makeDirectories, changePart_files]
  exact (makeDirectories_grows hw w.cwd p).2.at?_eq hx

theorem makeDirectories_confined {u : Unit} (h : Linkless w.files) (hp : p.Spells l)
    (hm : makeDirectories p w = .ok u w') :
    Confined l (settled p) w'.files w'.files ∧ w'.files.LinkFree [] := by
  obtain ⟨files, hf, rfl⟩ := changePart_ok hm
  rw [settled_eq hp]
  exact confined_of_makeDirectories h.1 h.2 hp hf

theorem prepare_kept (h : Linkless w.files) (hp : plan.output.Spells l) {clean : Bool}
    (hx : w.files.at? x = some node)
    (hout : clean = true → ¬ settled plan.staging <+: x) :
    ((prepare plan clean).after w).files.at? x = some node := by
  have hmake : ∀ q w₁, Linkless w₁.files → w₁.files.at? x = some node →
      ((makeDirectories q >>= fun _ => tell (started plan)).after w₁).files.at? x = some node := by
    intro q w₁ h₁ hx₁
    exact bind_keeps (J := (·.at? x = some node)) (makeDirectories_kept h₁.1 q hx₁) fun _ _ _ hx₂ => hx₂
  cases clean with
  | false => exact hmake _ w h hx
  | true =>
      obtain ⟨m, hs⟩ := root_spells hp true
      have hclear := clear_outside h.2 hs (hout rfl)
      rw [prepare_true]
      exact bind_keeps (J := (·.at? x = some node)) (hclear.trans hx) fun _ w₁ hc hx₁ =>
        hmake _ w₁ (h.clear hc) hx₁

theorem prepare_confined {u : Unit} (h : Linkless w.files) (hp : plan.output.Spells l) {clean : Bool}
    (hprep : prepare plan clean w = .ok u w') : w'.files.LinkFree [] ∧
      ∃ m, (plan.root clean).Spells m ∧ Confined m (settled (plan.root clean)) w'.files w'.files := by
  obtain ⟨m, hs⟩ := root_spells hp clean
  have hmake : ∀ w₁, Linkless w₁.files →
      (makeDirectories (plan.root clean) >>= fun _ => tell (started plan)) w₁ = .ok u w' →
        w'.files.LinkFree [] ∧ Confined m (settled (plan.root clean)) w'.files w'.files := by
    intro w₁ h₁ hrun
    obtain ⟨v, w₂, hm, ht⟩ := bind_eq_ok hrun
    obtain ⟨hconf, hfree⟩ := makeDirectories_confined h₁ hs hm
    cases ht
    exact ⟨hfree, hconf⟩
  cases clean with
  | false =>
      obtain ⟨hfree, hconf⟩ := hmake w h hprep
      exact ⟨hfree, m, hs, hconf⟩
  | true =>
      rw [prepare_true] at hprep
      obtain ⟨v, w₁, hc, hrest⟩ := bind_eq_ok hprep
      obtain ⟨hfree, hconf⟩ := hmake w₁ (h.clear hc) hrest
      exact ⟨hfree, m, hs, hconf⟩

section

variable {staging output : Path} (h : Linkless w.files) (hs : staging.Spells m) (hne : settled staging ≠ [])
    (ho : output.Spells l)

include h hs hne ho

theorem publish_outside (hsx : ¬ settled staging <+: x) (hox : ¬ settled output <+: x) :
    ((publish staging output).after w).files.at? x = w.files.at? x := by
  have hclear := clear_outside h.2 ho hox
  refine bind_keeps (J := fun fs => fs.at? x = w.files.at? x) hclear fun _ w₁ hc hx => ?_
  refine change_keeps (J := fun fs => fs.at? x = w.files.at? x) hx fun fs hr => ?_
  rw [settled_eq hs] at hne hsx
  rw [settled_eq ho] at hox
  rw [(rename_outside (h.clear hc).2 hs hne ho hr).1 x hsx hox, hx]

theorem publish_empty {u : Unit} (hp : publish staging output w = .ok u w') (hsx : settled staging <+: x)
    (hox : ¬ settled output <+: x) : w'.files.at? x = none := by
  obtain ⟨v, w₁, hc, hr⟩ := bind_eq_ok hp
  obtain ⟨files, hf, rfl⟩ := change_ok hr
  rw [settled_eq hs] at hne hsx
  rw [settled_eq ho] at hox
  exact (rename_outside (h.clear hc).2 hs hne ho hf).2 x hsx hox

end

theorem Confined.linkless {base : List String} {root : Location} {fs₀ fs : FileSystem}
    (h : Confined base root fs₀ fs)
    (hfree : fs₀.LinkFree []) : Linkless fs := ⟨h.wellFormed, h.linkFree_all hfree⟩

theorem staging_ne_nil (hp : p.Spells l) : settled (stagingPath p) ≠ [] := by
  obtain ⟨m, name, hslash, hspells, -⟩ := stagingPath_spells hp
  rw [settled_eq hspells, settle_append, settle_step (isName_hiddenName hslash).isStep]
  simp [settle]

theorem carryOut_kept (hp : plan.output.Spells l) (hfree : w.files.LinkFree [])
    (hm : (plan.root options.clean).Spells m)
    (hc : Confined m (settled (plan.root options.clean)) w.files w.files)
    (hplain : Walk.MeetsPlain (plan.limits options.clean) maxNesting (plan.inner options) plan.source
      (plan.root options.clean) w) (hout : ¬ settled plan.output <+: x)
    (hstaging : options.clean = true → ¬ settled plan.staging <+: x) :
    ((carryOut plan options).after w).files.at? x = w.files.at? x := by
  have hproduce : Confined m (settled (plan.root options.clean)) w.files
      ((produce (plan.limits options.clean) (plan.inner options)).after w).files := produce_keeps hm hc hplain
  rw [carryOut]
  cases hclean : options.clean with
  | false =>
      rw [hclean] at hproduce
      exact hproduce.within x hout
  | true =>
      rw [hclean] at hproduce hm
      replace hm : plan.staging.Spells m := hm
      replace hproduce : Confined m (settled plan.staging) w.files _ := hproduce
      simp only [if_true]
      cases hrun : produce (plan.limits true) (plan.inner options) w with
      | error e w₁ =>
          obtain ⟨w₂, hbuild, hfiles⟩ := buildClean_error hrun plan.output plan.staging
          rw [after_error hrun] at hproduce
          have hkept :=
            removeDirectory_outside w₁.cwd (hproduce.linkFree_all hfree) hm (settled_eq hm ▸ hstaging hclean)
          rw [after_error hbuild, hfiles, hkept]
          exact hproduce.within x (hstaging hclean)
      | ok hashed w₁ =>
          obtain ⟨events, hbuild⟩ := buildClean_ok hrun plan.output plan.staging
          rw [after_ok hrun] at hproduce
          have hkept :=
            publish_outside (w := { w₁ with events := events }) (Confined.linkless hproduce hfree) hm
            (staging_ne_nil hp) hp (hstaging hclean) hout
          rw [after, hbuild, ← after]
          refine bind_keeps (J := fun fs => fs.at? x = w.files.at? x) ?_ fun _ _ _ hx => hx
          rw [hkept]
          exact hproduce.within x (hstaging hclean)

theorem outputLocation_spells (hw : w.files.WellFormed) (hcwd : ∀ s ∈ w.cwd, IsName s) {output : Path}
    (h : outputLocation w.files w.cwd output = .ok p) : ∃ l, p.Spells l := by
  rcases outputLocation_cases hw hcwd h with ⟨hs, -⟩ | ⟨-, loc, s, -, -, -, hs, -⟩
  · exact ⟨_, hs⟩
  · exact ⟨_, hs⟩

theorem carryOut_empty {hashed : Asset.Renames} (hp : plan.output.Spells l) (hfree : w.files.LinkFree [])
    (hm : plan.staging.Spells m) (hc : Confined m (settled plan.staging) w.files w.files)
    (hplain : Walk.MeetsPlain (plan.limits true) maxNesting (plan.inner options) plan.source plan.staging w)
    (hclean : options.clean = true) (hrun : carryOut plan options w = .ok hashed w')
    (hsx : settled plan.staging <+: x) (hox : ¬ settled plan.output <+: x) : w'.files.at? x = none := by
  have hinner := inner_outputRoot plan hclean
  have hproduce : Confined m (settled plan.staging) w.files
      ((produce (plan.limits true) (plan.inner options)).after w).files := by
    refine produce_keeps (by rwa [hinner]) hc ?_
    rw [hinner]
    exact hplain
  rw [carryOut_clean plan hclean] at hrun
  cases hpr : produce (plan.limits true) (plan.inner options) w with
  | error e w₁ =>
      obtain ⟨w₂, hbuild, -⟩ := buildClean_error hpr plan.output plan.staging
      rw [hbuild] at hrun
      cases hrun
  | ok hashed' w₁ =>
      obtain ⟨events, hbuild⟩ := buildClean_ok hpr plan.output plan.staging
      rw [after_ok hpr] at hproduce
      rw [hbuild] at hrun
      obtain ⟨u, w₂, hpub, hret⟩ := bind_eq_ok hrun
      cases hret
      exact publish_empty (w := { w₁ with events := events }) (Confined.linkless hproduce hfree)
        hm (staging_ne_nil hp) hp
        hpub hsx hox

/-- A file outside the output is there after the build with the same bytes, whatever the result
is, unless the build is clean and the file is in its staging directory. Of that directory nothing
outside the output is left by a clean build that succeeds. -/
theorem build_keeps_files (hw : w.files.WellFormed) (hfree : w.files.LinkFree [])
    (hcwd : ∀ s ∈ w.cwd, IsName s)
    (hplain : ExpandsPlain options w) (hp : outputLocation w.files w.cwd options.outputRoot = .ok p) :
    (∀ x bytes, w.files.at? x = some (.file bytes) → ¬ settled p <+: x →
      (options.clean = true → ¬ settled (stagingPath p) <+: x) →
      ((build options).after w).files.at? x = some (.file bytes)) ∧
    ∀ report w', build options w = .ok report w' → options.clean = true →
      ∀ x, settled (stagingPath p) <+: x → ¬ settled p <+: x → w'.files.at? x = none := by
  obtain ⟨l, hspells⟩ := outputLocation_spells hw hcwd hp
  have hvalid : ∀ plan w₁, validate options w = .ok plan w₁ → Linkless w₁.files ∧ plan.output = p := by
    intro plan w₁ hv
    obtain ⟨hfiles, -, hloc, -⟩ := validate_ok hv
    rw [hp] at hloc
    exact ⟨hfiles ▸ ⟨hw, hfree⟩, (Except.ok.inj hloc).symm⟩
  constructor
  · intro x bytes hx hout hstaging
    have hkeep : Keeps (fun fs => fs.at? x = some (.file bytes)) (validate options) := validate_keeps options
    refine bind_keeps (J := fun fs => fs.at? x = some (.file bytes)) (hkeep w hx) fun plan w₁ hv hx₁ => ?_
    obtain ⟨hlinkless, rfl⟩ := hvalid plan w₁ hv
    refine bind_keeps (J := fun fs => fs.at? x = some (.file bytes))
      (prepare_kept hlinkless hspells hx₁ hstaging) fun _ w₂ hprep hx₂ => ?_
    obtain ⟨hfree₂, m, hm, hc⟩ := prepare_confined hlinkless hspells hprep
    have hkept := carryOut_kept hspells hfree₂ hm hc (hplain plan w₁ w₂ hv hprep) hout hstaging
    exact bind_keeps (J := fun fs => fs.at? x = some (.file bytes)) (hkept.trans hx₂) fun _ _ _ hx => hx
  · intro report w' hb hclean x hsx hox
    obtain ⟨plan, w₁, hv, hb⟩ := bind_eq_ok hb
    obtain ⟨hlinkless, rfl⟩ := hvalid plan w₁ hv
    obtain ⟨u, w₂, hprep, hb⟩ := bind_eq_ok hb
    have hplain₂ := hplain plan w₁ w₂ hv hprep
    rw [hclean] at hprep hplain₂
    obtain ⟨hfree₂, m, hm, hc⟩ := prepare_confined hlinkless hspells hprep
    obtain ⟨hashed, w₃, hrun, hb⟩ := bind_eq_ok hb
    have hempty := carryOut_empty hspells hfree₂ hm hc hplain₂ hclean hrun hsx hox
    cases hb
    exact hempty

/-- A stylesheet in the source, and something in the previous output. -/
def styledSource : World :=
  ⟨⟨[(["src", "css", "app.css"], .file "p { }".toUTF8), (["src", "css"], .directory), (["src"], .directory),
    (["site", "old.txt"], .file "old".toUTF8), (["site"], .directory)]⟩, [], []⟩

theorem build_keeps_stylesheet :
    ((build (cleanBuild "src" "site")).after styledSource).files.at? ["src", "css", "app.css"] =
    some (.file "p { }".toUTF8) := by
  have hp : outputLocation styledSource.files styledSource.cwd ⟨"site"⟩ = .ok ⟨"/site"⟩ := by decide +kernel
  exact (build_keeps_files (by decide +kernel) (by decide +kernel) (by decide) (by decide +kernel) hp).1 _ _
    (by decide +kernel) (by decide +kernel) fun _ => by decide +kernel

/-- The source is the directory that a clean build to its sibling renders into. -/
def sourceInStaging : World :=
  ⟨⟨[([".site.staging", "a.txt"], .file "a".toUTF8), ([".site.staging"], .directory)]⟩, [], []⟩

/-- The output does not hold the source, and still all of the source is removed. -/
theorem build_removes_source :
    sourceInStaging.files.WellFormed ∧ sourceInStaging.files.LinkFree [] ∧
      ExpandsPlain (cleanBuild ".site.staging" "site") sourceInStaging ∧
      outputLocation sourceInStaging.files sourceInStaging.cwd ⟨"site"⟩ = .ok ⟨"/site"⟩ ∧
      ¬ settled ⟨"/site"⟩ <+: [".site.staging"] ∧
      sourceInStaging.files.at? [".site.staging", "a.txt"] = some (.file "a".toUTF8) ∧
      ((build (cleanBuild ".site.staging" "site")).after sourceInStaging).files.at? [".site.staging",
        "a.txt"] = none := by
  decide +kernel

end SiteTree.Build
