import SiteTree.Proofs.Asset.Redirecting
import SiteTree.Proofs.Build.Alike
import SiteTree.Proofs.FileSystem.Filled
import SiteTree.Proofs.Walk.Upheld

/-!
No directory is left without a file: directories are made only for a file that is put below them, and the passes that
rename and rewrite files leave some in each directory that had any.
-/

namespace SiteTree

open SiteTree.Action FileSystem SiteTree.Path

/-- Every directory strictly below the root has a file somewhere beneath it. -/
def FileSystem.Peopled (root : Location) (fs : FileSystem) : Prop :=
  ∀ x, root <+: x → x ≠ root → fs.at? x = some .directory → ∃ y bytes, x <+: y ∧ fs.at? y = some (.file bytes)

section

variable {fs₀ fs fs' : FileSystem} {root : Location} {base names : List String}

/-- The directories that a file has come with have that file beneath them. -/
theorem FileSystem.Filled.peopled (h : Filled root names fs fs') (hp : Peopled root fs) : Peopled root fs' := by
  rintro x ⟨k, rfl⟩ hne hd
  obtain ⟨new, hnode⟩ := h.node
  have hat := hnode k
  rw [hd] at hat
  split at hat
  · cases hat
  · split at hat
    · next hk => exact ⟨root ++ names, new, (List.prefix_append_right_inj root).2 hk, by rw [hnode, if_pos rfl]⟩
    · obtain ⟨y, bytes, hy, hfile⟩ := hp _ (List.prefix_append _ _) hne hat.symm
      obtain ⟨l, rfl⟩ := (List.prefix_append root k).trans hy
      obtain ⟨bytes', hfile'⟩ := h.isFile hfile
      exact ⟨_, bytes', hy, hfile'⟩

theorem Action.IsTarget.spelled {p : Path} (h : IsTarget base p) :
    p.IsOpen ∧ ∃ names, names ≠ [] ∧ (∀ s ∈ names, IsName s) ∧ p.Spells (base ++ names) := by
  obtain ⟨ho, names, s, hn, hs, hp⟩ := h
  exact ⟨ho, names ++ [s], by simp, by simpa [or_imp, forall_and] using ⟨hn, hs.isName⟩, by rwa [← List.append_assoc]⟩

/-- A file that is written or copied to a plain name inside a directory leaves no directory there without a file. -/
theorem upheld_peopled (hup : ".." ∉ base) :
    Upheld (fun fs => Confined base root fs₀ fs ∧ Peopled root fs) (IsTarget base) := by
  refine ⟨fun ht => ht.placeOf, fun {target} ht text w u w' hrun hw => ?_, fun {target} ht source w u w' hrun hw => ?_⟩
  · obtain ⟨ho, names, hne, hn, hp⟩ := ht.spelled
    have hkept := writeText_keeps ht.inside text w hw.1
    rw [after_ok hrun] at hkept
    exact ⟨hkept, (writeText_ok hw.1 hup hn hp ho hne hrun).peopled hw.2⟩
  · obtain ⟨ho, names, hne, hn, hp⟩ := ht.spelled
    have hkept := copy_keeps ht.inside source w hw.1
    rw [after_ok hrun] at hkept
    exact ⟨hkept, (copy_ok hw.1 hup hn hp ho hne hrun).peopled hw.2⟩

end

namespace Asset

variable {fs fs' : FileSystem} {loc : Location} {root : Path} {n : String} {names : List String} {s : Shelf}
  {renames : Renames} {pairs : List (String × String)} {w w' : World}

theorem Shelf.stampOne_stocked (h : ∃ x, (s x).isSome) (n : String) : ∃ x, (s.stampOne n x).isSome := by
  cases hnew : s.newName? n with
  | none => rwa [stampOne_of_none hnew]
  | some m =>
      obtain ⟨bytes, hb, -⟩ := newName?_eq_some.1 hnew
      exact ⟨m, by rw [stampOne_of_some hnew, if_pos rfl, hb]; rfl⟩

/-- A shelf with something on it is not emptied. -/
theorem Shelf.stampAll_stocked (h : ∃ x, (s x).isSome) (names : List String) : ∃ x, ((stampAll names s).1 x).isSome := by
  induction names generalizing s with
  | nil => exact h
  | cons n names ih => exact ih (stampOne_stocked h n)

/-- A directory that had files has some when its assets have got their new names. -/
theorem Stamped.peopled (h : Stamped loc (DirsBelow fs loc) fs fs' pairs) (hw : fs.WellFormed) (hp : Peopled loc fs) :
    Peopled loc fs' := by
  intro x hx hne hd
  obtain ⟨y, bytes, hy, hfile⟩ := hp x hx hne (h.directory.1 hd)
  obtain ⟨dir, name, rfl, hdir, -⟩ := hw.exists_eq_append (show (fs.at? y).isSome by rw [hfile]; rfl)
    (by rintro rfl; cases hfile)
  have hxdir : x <+: dir := by
    refine (List.prefix_concat_iff.1 hy).resolve_left ?_
    rintro rfl
    cases (h.directory.1 hd).symm.trans hfile
  by_cases hpage : IsPageName name
  · exact ⟨_, bytes, hy, (h.page hpage).trans hfile⟩
  · have hstock : ∃ n, (shelfOf fs dir n).isSome := ⟨name, by rw [shelfOf_eq_some.2 ⟨hpage, hfile⟩]; rfl⟩
    obtain ⟨n, hn⟩ := Shelf.stampAll_stocked hstock (assetsIn fs dir)
    rw [← h.shelf dir ⟨hx.trans hxdir, hdir⟩] at hn
    obtain ⟨bytes', hb⟩ := Option.isSome_iff_exists.1 hn
    exact ⟨dir ++ [n], bytes', hxdir.trans (List.prefix_append _ _), (shelfOf_eq_some.1 hb).2⟩

theorem Redirected.peopled {Y : Location → Prop} (h : Redirected renames Y fs fs') (hp : Peopled loc fs) :
    Peopled loc fs' := by
  intro x hx hne hd
  obtain ⟨y, bytes, hy, hfile⟩ := hp x hx hne (h.directory.1 hd)
  rcases h.at?_cases y with he | ⟨_, -, he⟩
  · exact ⟨y, bytes, hy, he.trans hfile⟩
  · exact ⟨y, _, hy, he⟩

theorem runPasses_peopled (hr : Region root loc w) (hp : Peopled loc w.files) (h : runPasses root w = .ok renames w') :
    Peopled loc w'.files := by
  obtain ⟨pairs, w₁, -, -, -, hst, hred⟩ := runPasses_ok hr h
  exact hred.peopled (hst.peopled hr.wellFormed hp)

end Asset

namespace Build

variable {fs₀ : FileSystem} {options : Options} {report : Report} {hashed : Asset.Renames} {w w' : World} {root : Location}
  {base : List String} {limits : Walk.Limits}

/-- What is produced in a directory leaves none below it without a file. -/
theorem produce_peopled (hup : ".." ∉ base) (hspells : options.outputRoot.Spells base)
    (hw : Confined base root fs₀ w.files) (hp : Peopled root w.files)
    (hplain : Walk.MeetsPlain limits maxNesting options options.sourceRoot options.outputRoot w)
    (hrun : produce limits options w = .ok hashed w') : Peopled root w'.files := by
  obtain ⟨u, w₁, hrender, hrest⟩ := bind_eq_ok hrun
  obtain ⟨hconfined, hpeopled⟩ : Confined base root fs₀ w₁.files ∧ Peopled root w₁.files :=
    Walk.render_upholds (Below.self hspells) (upheld_peopled hup) hplain ⟨hw, hp⟩ hrender
  split at hrest
  · have hfound := found_of_resolve (hconfined.resolve_self hspells w₁.cwd false)
    exact Asset.runPasses_peopled ⟨hconfined.wellFormed, leadsTo_iff.2 hfound, hconfined.linkFree⟩ hpeopled hrest
  · cases hrest
    exact hpeopled

/-- What a clean build publishes has no link in it, and no directory without a file. -/
theorem build_publishes_no_empty (hw : w.files.WellFormed) (hcwd : ∀ s ∈ w.cwd, IsName s) (hclean : options.clean = true)
    (hup : .up ∉ options.outputRoot.components) (hplain : ExpandsPlain options w)
    (h : build options w = .ok report w') (cwd : Location) :
    treeAt w'.files cwd report.outputRoot [] = some .directory ∧
      (∀ x target, treeAt w'.files cwd report.outputRoot x ≠ some (.link target)) ∧
      ∀ x, x ≠ [] → treeAt w'.files cwd report.outputRoot x = some .directory →
        ∃ y bytes, x <+: y ∧ treeAt w'.files cwd report.outputRoot y = some (.file bytes) := by
  obtain ⟨plan, w₁, hv, -⟩ := bind_eq_ok (a := validate options) h
  obtain ⟨l, name, hp⟩ := placed_of_validate hw hcwd hup hv
  obtain ⟨hfiles, -⟩ := validate_ok hv
  rw [← hfiles] at hw hp
  replace h := (build_of_plan hv).symm.trans h
  rw [hclean] at h
  rcases prepare_cases hw hp w.cwd with ⟨w₂, hprep, ⟨dir, hst⟩, -⟩ | ⟨e, w₂, hprep, -⟩
  · have hplain₂ := hplain plan w₁ w₂ hv (hclean ▸ hprep)
    replace h := (bind_ok hprep).symm.trans h
    rcases carryOut_cases hw hp hst hclean hplain₂ with
      ⟨e, -, w₃, -, hrun, -⟩ | ⟨-, -, e, w₃, -, hrun, -⟩ | ⟨hashed, w₃, w₄, hproduce, hrun, hpublished, -⟩
    · cases (bind_error hrun).symm.trans h
    · cases (bind_error hrun).symm.trans h
    · obtain ⟨u, w₅, ht, hr⟩ := bind_eq_ok ((bind_ok hrun).symm.trans h)
      cases ht
      cases hr
      have hroot := inner_outputRoot plan hclean
      rw [hclean, Plan.root, if_pos rfl, ← hroot] at hplain₂
      have hspells : (plan.inner options).outputRoot.Spells (l ++ [hiddenName name]) := hroot ▸ hp.staging.1
      have hempty : Peopled (dir ++ [hiddenName name]) w₂.files := fun x hx hne hd => by
        rw [hst.empty x hx hne] at hd
        cases hd
      have hpeopled := produce_peopled hp.noUp_hidden hspells hst.confined hempty hplain₂ hproduce
      have hheld := produce_keeps hspells hst.confined hplain₂
      rw [after_ok hproduce] at hheld
      have hreach : w₄.files.Reaches l dir :=
        hst.reaches fun x hs ho => (hpublished.outside x hs ho).trans (hheld.within x hs)
      show treeAt w₄.files cwd plan.output [] = _ ∧ (∀ x target, treeAt w₄.files cwd plan.output x ≠ _) ∧
        ∀ x, x ≠ [] → treeAt w₄.files cwd plan.output x = _ →
          ∃ y bytes, x <+: y ∧ treeAt w₄.files cwd plan.output y = _
      rw [treeAt_published hpublished hreach hp.spells hp.isName hheld.directory]
      refine ⟨by simpa using hheld.directory,
        fun x target => hheld.linkFree _ target (List.prefix_append _ _), fun x hx hd => ?_⟩
      obtain ⟨y, bytes, hy, hfile⟩ := hpeopled _ (List.prefix_append _ _) (by simpa using hx) hd
      obtain ⟨r, rfl⟩ := (List.prefix_append _ x).trans hy
      exact ⟨r, bytes, (List.prefix_append_right_inj _).1 hy, hfile⟩
  · cases (bind_error hprep).symm.trans h

/-- A directory of pictures that the source links to, beside directories from which nothing comes: an ignored one, an
empty one, a loop over nothing, and one with a stylesheet that is only imported. -/
def sparseSources : World :=
  ⟨⟨[(["src", "pics"], .link "../art"), (["src", ".git", "config"], .file "x".toUTF8), (["src", ".git"], .directory),
    (["src", "empty"], .directory), (["src", "[t of tags]", "a.txt"], .file "a".toUTF8), (["src", "[t of tags]"], .directory),
    (["src", "css", "base.css"], .file "p { }".toUTF8), (["src", "css"], .directory), (["src"], .directory),
    (["art", "logo.svg"], .file "x".toUTF8), (["art"], .directory)]⟩, [], []⟩

theorem sparseSources_published : ∃ report w', build (cleanBuild "src" "site") sparseSources = .ok report w' ∧
    (∀ x target, treeAt w'.files [] report.outputRoot x ≠ some (.link target)) ∧
      ∃ y bytes, ["pics"] <+: y ∧ treeAt w'.files [] report.outputRoot y = some (.file bytes) := by
  obtain ⟨report, w', h, hd⟩ := yields_iff.1 (show yields (build (cleanBuild "src" "site")) sparseSources
    (fun report w' => decide (treeAt w'.files [] report.outputRoot ["pics"] = some .directory)) = true by decide +kernel)
  have hplain : ExpandsPlain (cleanBuild "src" "site") sparseSources := by decide +kernel
  obtain ⟨-, hlinks, hfiles⟩ :=
    build_publishes_no_empty (by decide +kernel) (by decide) rfl (by decide +kernel) hplain h []
  exact ⟨report, w', h, hlinks, hfiles _ (by decide) (of_decide_eq_true hd)⟩

end Build

end SiteTree
