import SiteTree.Proofs.Build.Clean

/-!
A clean build that fails leaves what was at its output: a tree, a file, a link or nothing.
-/

namespace SiteTree.Build

open SiteTree.Action FileSystem SiteTree.Path

variable {options : Options} {plan : Plan} {start fs fs' : FileSystem} {w w' : World} {l : List String}
    {s name : String}
  {cwd dir : Location} {p : Path}

/-- What stands at a path and below it, by location. A link at the end is not followed. -/
def treeAt (fs : FileSystem) (cwd : Location) (p : Path) : Location → Option FileNode :=
  match fs.resolve cwd false p with
  | .ok (.found loc _) => fun x => fs.at? (loc ++ x)
  | _ => fun _ => none

theorem treeAt_of_open (hr : fs.Reaches l dir) (hp : p.Spells (l ++ [s])) (hs : IsStep s) (ho : p.IsOpen)
    (hbelow : fs.at? (dir ++ [s]) = none → ∀ x, fs.at? (dir ++ [s] ++ x) = none) :
    treeAt fs cwd p = fun x => fs.at? (dir ++ [s] ++ x) := by
  rw [treeAt, resolve_step hr hp hs ho, placeIn]
  cases hat : fs.at? (dir ++ [s]) with
  | some node => rfl
  | none => exact funext fun x => (hbelow hat x).symm

theorem treeAt_of_directory (hr : fs.Reaches l dir) (hp : p.Spells (l ++ [s])) (hs : IsStep s)
    (hat : fs.at? (dir ++ [s]) = some .directory) : treeAt fs cwd p = fun x => fs.at? (dir ++ [s] ++ x) := by
  have hempty : "" ∉ l := fun hc => ne_empty_of_spells hp (List.mem_append_left _ hc)
  have hleads : fs.Leads false (maxLinks + 1) [] (l ++ [s]) (.found (dir ++ [s]) .directory) := by
    have hstep := hr.step hempty hs
    rw [placeIn, hat] at hstep
    exact .of_walk hstep
  rw [treeAt, hleads.resolve_self hp]

theorem treeAt_of_vacant (hr : fs.Reaches l dir) (hp : p.Spells (l ++ [s])) (hs : IsStep s)
    (hn : fs.at? (dir ++ [s]) = none) : treeAt fs cwd p = fun _ => none := by
  obtain ⟨slashed, hv⟩ : ∃ slashed, fs.resolve cwd false p = .ok (.vacant dir s slashed) :=
    resolve_vacant hr hp hs hn false
  rw [treeAt, hv]

theorem treeAt_of_unreached (hp : p.Spells (l ++ [s])) (hs : IsStep s) (hnone : ∀ d, ¬ fs.Reaches l d) :
    treeAt fs cwd p = fun _ => none := by
  unfold treeAt
  split
  · next loc node hr => exact absurd ⟨loc, node, hr⟩ (not_stands_of_unreached hp hs hnone)
  · rfl

theorem at?_below_vacant (hw : fs.WellFormed) {loc : Location} (hn : fs.at? loc = none) (x : Location) :
    fs.at? (loc ++ x) = none := by
  by_cases hx : x = []
  · rwa [hx, List.append_nil]
  · exact hw.at?_below (by simp [hn]) (List.prefix_append _ _) (by simpa using hx)

theorem Staged.treeAt_eq (hst : Staged start fs l name dir) (hw : start.WellFormed)
    (hp : Placed start p l name)
    (hkeep : ∀ x, ¬ dir ++ [hiddenName name] <+: x → fs'.at? x = fs.at? x) :
    treeAt fs' cwd p = treeAt start cwd p := by
  have hstep := hp.isName.isStep
  have hr : fs'.Reaches l dir := hst.reaches fun x hs _ => hkeep x hs
  have hsame : ∀ x, fs'.at? (dir ++ [name] ++ x) = start.at? (dir ++ [name] ++ x) := fun x =>
    (hkeep _ (not_prefix_sibling (hiddenName_ne name).symm (List.prefix_append _ _))).trans
      (hst.kept _ (List.prefix_append _ _))
  have hself : fs'.at? (dir ++ [name]) = start.at? (dir ++ [name]) := by simpa using hsame []
  rcases hst.before with hb | ⟨hnone, hb⟩
  · have ho := (hp.ready dir hb).2
    rw [treeAt_of_open hb hp.spells hstep ho fun hn => at?_below_vacant hw hn,
      treeAt_of_open hr hp.spells hstep ho fun hn x =>
        (hsame x).trans (at?_below_vacant hw (hself.symm.trans hn) x)]
    exact funext hsame
  · have hn := hself.trans (at?_below_vacant hw hb [name])
    rw [treeAt_of_unreached hp.spells hstep hnone, treeAt_of_vacant hr hp.spells hstep hn]

/-- Wherever a clean build fails, what was at the output before is there unchanged. -/
theorem build_error_keeps_output (hw : w.files.WellFormed) (hcwd : ∀ s ∈ w.cwd, IsName s)
    (hclean : options.clean = true) (hup : .up ∉ options.outputRoot.components)
    (hplain : ExpandsPlain options w)
    (hp : outputLocation w.files w.cwd options.outputRoot = .ok p) {e : Failure}
    (h : build options w = .error e w') :
    treeAt w'.files w.cwd p = treeAt w.files w.cwd p := by
  cases hv : validate options w with
  | error e₁ w₁ =>
      have hfiles := validate_keeps (J := (· = w.files)) options w rfl
      rw [after_error hv] at hfiles
      have hb := (bind_error hv).symm.trans h
      cases hb
      rw [hfiles]
  | ok plan w₁ =>
      obtain ⟨hfiles, -, hlocation, -⟩ := validate_ok hv
      obtain rfl : p = plan.output := Except.ok.inj (hp.symm.trans hlocation)
      obtain ⟨l, name, hplaced⟩ := placed_of_validate hw hcwd hup hv
      rw [← hfiles] at hw hplaced
      replace h := (build_of_plan hv).symm.trans h
      rcases prepare_cases hw hplaced w.cwd with ⟨w₂, hprep, ⟨dir, hst⟩, -⟩ | ⟨e₂, w₂, hprep, hsame, -⟩
      · rw [← hclean] at hprep
        have hplain₂ := hplain plan w₁ w₂ hv hprep
        replace h := (bind_ok hprep).symm.trans h
        rw [← hfiles]
        rcases carryOut_cases hw hplaced hst hclean hplain₂ with
          ⟨e₃, -, w₃, -, hrun, hkeep, -⟩ | ⟨-, -, e₃, w₃, -, hrun, hkeep, -⟩ | ⟨hashed, -, w₃, -, hrun, -⟩
        · have hb := (bind_error hrun).symm.trans h
          cases hb
          exact hst.treeAt_eq hw hplaced hkeep
        · have hb := (bind_error hrun).symm.trans h
          cases hb
          exact hst.treeAt_eq hw hplaced hkeep
        · cases (bind_ok hrun).symm.trans h
      · rw [← hclean] at hprep
        have hb := (bind_error hprep).symm.trans h
        cases hb
        rw [hsame, hfiles]

/-- A page that cannot be rendered comes after a file that can be copied. -/
def brokenPage : World :=
  ⟨⟨[(["src", "a.txt"], .file "new".toUTF8), (["src", "b.ejs"], .file "<% ".toUTF8), (["src"], .directory),
    (["site", "a.txt"], .file "old".toUTF8), (["site"], .directory)]⟩, [], []⟩

theorem build_of_brokenPage : ∃ e w', build (cleanBuild "src" "site") brokenPage = .error e w' ∧
    treeAt w'.files [] ⟨"/site"⟩ = treeAt brokenPage.files [] ⟨"/site"⟩ := by
  have hp : outputLocation brokenPage.files brokenPage.cwd ⟨"site"⟩ = .ok ⟨"/site"⟩ := by decide +kernel
  have hclean : (cleanBuild "src" "site").clean = true := rfl
  have hplain : ExpandsPlain (cleanBuild "src" "site") brokenPage := by decide +kernel
  obtain ⟨e, w', h⟩ :=
    not_succeeds_iff.1 (show succeeds (build (cleanBuild "src" "site")) brokenPage = false by decide +kernel)
  exact ⟨e, w', h, build_error_keeps_output (by decide +kernel) (by decide) hclean
    (by decide +kernel) hplain hp h⟩

end SiteTree.Build
