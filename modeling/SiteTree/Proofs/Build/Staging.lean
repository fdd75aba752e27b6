import SiteTree.Proofs.Build.Produce

/-!
The staging directory of a clean build: what there is once it has been prepared, and what is left
of it when the build returns.
-/

namespace SiteTree.Build

open SiteTree.Action FileSystem SiteTree.Path

variable {options : Options} {plan : Plan} {start fs fs' : FileSystem} {w w' : World}
    {l : List String} {name : String}
  {cwd dir x : Location} {p : Path}

/-- An output that ends in a name. If its parent leads somewhere it is spelled as the location
that it leads to. -/
structure Placed (fs : FileSystem) (p : Path) (l : List String) (name : String) : Prop where
  spells : p.Spells (l ++ [name])
  isName : IsName name
  noUp : ".." ∉ l
  ready : ∀ dir, fs.Reaches l dir → dir = l ∧ p.IsOpen

theorem up_not_mem_absoluteNames {output : Path} (hcwd : ∀ s ∈ cwd, IsName s) (hup : .up ∉ output.components) :
    ".." ∉ absoluteNames cwd output := by
  rw [up_mem_components] at hup
  intro hc
  rcases List.mem_append.1 hc with hc | hc
  · split at hc
    · cases hc
    · exact not_up_of_isName hcwd hc
  · exact hup (List.mem_filter.1 hc).1

/-- An output that is left as it was written must not have double dots. -/
theorem placed_of_spelled {output : Path} (hw : fs.WellFormed) (hcwd : ∀ s ∈ cwd, IsName s)
    (hup : p.Spells (absoluteNames cwd output) → ".." ∉ absoluteNames cwd output)
    (h : outputLocation fs cwd output = .ok p) (hroot : ¬ p.Spells []) : ∃ l name, Placed fs p l name := by
  rcases outputLocation_cases hw hcwd h with ⟨hspells, hnone⟩ | ⟨l, loc, s, node, -, hname,
    hspells, ho, hat, hnode⟩
  · have hupNames := hup hspells
    generalize absoluteNames cwd output = names at hspells hnone hupNames
    have hnil : names ≠ [] := by
      rintro rfl
      exact hroot hspells
    obtain ⟨l, s, rfl, hname⟩ := exists_step hspells hupNames hnil
    exact ⟨l, s, hspells, hname, fun hc => hupNames (List.mem_append_left _ hc),
      fun dir hr => absurd hr (hnone l s rfl hname.2.2.1 dir)⟩
  · have hloc := hw.isName_of_mem (by rw [hat]; rfl)
    exact ⟨loc, s, hspells, hname, not_up_of_isName hloc, fun dir hr =>
      ⟨(hw.directory_of_reaches hat hnode hr).2, ho⟩⟩

theorem placed_of_location {output : Path} (hw : fs.WellFormed) (hcwd : ∀ s ∈ cwd, IsName s) (hup : .up ∉ output.components)
    (h : outputLocation fs cwd output = .ok p) (hroot : ¬ p.Spells []) : ∃ l name, Placed fs p l name :=
  placed_of_spelled hw hcwd (fun _ => up_not_mem_absoluteNames hcwd hup) h hroot

theorem placed_of_validate (hw : w.files.WellFormed) (hcwd : ∀ s ∈ w.cwd, IsName s)
    (hup : .up ∉ options.outputRoot.components) (h : validate options w = .ok plan w') :
    ∃ l name, Placed w.files plan.output l name := by
  obtain ⟨-, hsource, hlocation, hstarts⟩ := validate_ok h
  refine placed_of_location hw hcwd hup hlocation fun hspells => ?_
  obtain ⟨loc, hs⟩ := canonical_spells hw hsource
  rw [(hs.startsWith_iff hspells).2 List.nil_prefix] at hstarts
  cases hstarts

theorem Placed.unique {fs' : FileSystem} {l' : List String} {name' : String} (h : Placed fs p l name)
    (h' : Placed fs' p l' name') : l' = l ∧ name' = name := by
  obtain ⟨hl, hname⟩ := List.append_inj' (h'.spells.stretches.symm.trans h.spells.stretches) rfl
  exact ⟨hl, by simpa using hname⟩

theorem hiddenName_ne (name : String) : hiddenName name ≠ name := by
  intro h
  have hl := congrArg (fun s => s.toList.length) h
  simp [hiddenName] at hl
  omega

theorem Placed.staging (h : Placed fs p l name) :
    (stagingPath p).Spells (l ++ [hiddenName name]) ∧ (stagingPath p).IsOpen := by
  have hst : stagingPath p = p.withFileName (hiddenName name) := by
    rw [stagingPath, fileName?, h.spells.fileChars h.isName.2.2.1]
    simp [hiddenName]
  rw [hst]
  exact h.spells.withFileName h.isName.2.2.1 (isName_hiddenName h.isName.2.2.2)

theorem Placed.hidden (h : Placed fs p l name) : IsName (hiddenName name) := isName_hiddenName h.isName.2.2.2

theorem Placed.noUp_hidden (h : Placed fs p l name) : ".." ∉ l ++ [hiddenName name] := by
  intro hc
  rcases List.mem_append.1 hc with hc | hc
  · exact h.noUp hc
  · exact h.hidden.2.2.1 (List.mem_singleton.1 hc).symm

theorem not_prefix_sibling {a b : String} (hne : a ≠ b) (ha : dir ++ [a] <+: x) : ¬ dir ++ [b] <+: x := by
  intro hb
  obtain ⟨r, rfl⟩ := ha
  rw [List.append_assoc, List.prefix_append_right_inj] at hb
  simp [List.cons_prefix_cons, Ne.symm hne] at hb

/-- An empty staging directory has been made beside the output, which is as it was, with the levels
above it as needed. The way to both goes through nothing at or below them. -/
structure Staged (start fs : FileSystem) (l : List String) (name : String) (dir : Location) : Prop where
  confined : Confined (l ++ [hiddenName name]) (dir ++ [hiddenName name]) fs fs
  way : ∃ fs₁ : FileSystem, fs₁.Reaches l dir ∧
    (∀ x, dir ++ [hiddenName name] <+: x ∨ dir ++ [name] <+: x → fs₁.at? x = none) ∧
    ∀ x, ¬ dir ++ [hiddenName name] <+: x → ¬ dir ++ [name] <+: x → fs.at? x = fs₁.at? x
  kept : ∀ x, dir ++ [name] <+: x → fs.at? x = start.at? x
  before : start.Reaches l dir ∨ (∀ d, ¬ start.Reaches l d) ∧ start.at? dir = none
  empty : ∀ x, dir ++ [hiddenName name] <+: x → x ≠ dir ++ [hiddenName name] → fs.at? x = none
  grown : ∀ x, ¬ dir ++ [hiddenName name] <+: x →
    fs.at? x = start.at? x ∨ start.at? x = none ∧ fs.at? x = some .directory

theorem Staged.reaches (h : Staged start fs l name dir)
    (hkeep : ∀ x, ¬ dir ++ [hiddenName name] <+: x → ¬ dir ++ [name] <+: x → fs'.at? x = fs.at? x) :
    fs'.Reaches l dir := by
  obtain ⟨fs₁, hr, hnone, hsame⟩ := h.way
  refine hr.mono fun x node hx _ => ?_
  have hs : ¬ dir ++ [hiddenName name] <+: x := fun hp => by rw [hnone x (.inl hp)] at hx; cases hx
  have ho : ¬ dir ++ [name] <+: x := fun hp => by rw [hnone x (.inr hp)] at hx; cases hx
  rw [hkeep x hs ho, hsame x hs ho, hx]

theorem confined_of_fresh {base : List String} {root : Location} (hw : fs.WellFormed)
    (hl : fs.Leads false (maxLinks + 1) [] base (.found root .directory))
    (hbelow : ∀ x, root <+: x → x ≠ root → fs.at? x = none) : Confined base root fs fs := by
  refine ⟨hw, hl, fun x target hx ht => ?_, fun _ _ => rfl⟩
  by_cases he : x = root
  · rw [he, hl.at?_found] at ht
    cases ht
  · rw [hbelow x hx he] at ht
    cases ht

theorem not_append_isPrefix_of_isPrefix {y : Location} (hy : y <+: dir) : ¬ dir ++ [name] <+: y :=
  fun h => not_append_isPrefix (h.trans hy)

theorem staged_of_ready (cwd : Location) (hw : start.WellFormed) (hp : Placed start p l name)
    (hr : start.Reaches l l) (hwf : fs.WellFormed)
    (hsame : ∀ x, ¬ l ++ [hiddenName name] <+: x → fs.at? x = start.at? x)
    (hnone : ∀ x, l ++ [hiddenName name] <+: x → fs.at? x = none) :
    fs.makeDirectories cwd (stagingPath p) = .ok (fs.put (l ++ [hiddenName name]) .directory) ∧
      Staged start (fs.put (l ++ [hiddenName name]) .directory) l name l := by
  obtain ⟨hspells, hopen⟩ := hp.staging
  have hd := hr.directory
  have hreach : fs.Reaches l l := hw.reaches_of_same hd fun y hy =>
    hsame y (not_append_isPrefix_of_isPrefix hy)
  have hfree := hnone _ List.prefix_rfl
  have hloc : fs.locate cwd (stagingPath p) = .ok (.vacant l (hiddenName name) false) := by
    rw [locate_step hreach hspells hp.hidden.isStep, placeIn, hfree]
  have hother : ∀ x, x ≠ l ++ [hiddenName name] →
      (fs.put (l ++ [hiddenName name]) .directory).at? x = fs.at? x :=
        fun x hx => hwf.at?_put (by simp [hfree]) hx
  constructor
  · have hm := makeDirectory_eq_ok.2 ⟨l, hiddenName name, false, hloc, rfl⟩
    rw [FileSystem.makeDirectories, makeLevels, if_neg (by simp [hspells.isEmpty]), hm]
  · refine ⟨confined_of_fresh (hwf.put hreach.directory hp.hidden) ?_ fun x hx hne => at?_put_below hx hne,
      ⟨(start.remove (l ++ [hiddenName name])).remove (l ++ [name]), ?_, ?_, ?_⟩, ?_, .inl hr,
      fun x hx hne => at?_put_below hx hne, fun x hx => .inl ?_⟩
    · rw [hspells.locate_eq] at hloc
      exact (Leads.of_walk hloc).fill (hwf.grows_put hfree) (at?_put_self fs _ (by simp)) false
    · refine hw.reaches_of_same hd fun y hy => ?_
      rw [at?_remove_apart (not_append_isPrefix_of_isPrefix hy),
        at?_remove_apart (not_append_isPrefix_of_isPrefix hy)]
    · have hne : ∀ {a : String} {x : Location}, l ++ [a] <+: x → x ≠ [] := by
        rintro a x hx rfl
        simp at hx
      rintro x (hx | hx)
      · by_cases ho : l ++ [name] <+: x
        · exact at?_remove_below ho (hne hx)
        · rw [at?_remove_apart ho, at?_remove_below hx (hne hx)]
      · exact at?_remove_below hx (hne hx)
    · intro x hs ho
      rw [hother x (by rintro rfl; exact hs List.prefix_rfl), hsame x hs, at?_remove_apart ho,
        at?_remove_apart hs]
    · intro x hx
      have hs : ¬ l ++ [hiddenName name] <+: x := not_prefix_sibling (hiddenName_ne name).symm hx
      rw [hother x (by rintro rfl; exact hs List.prefix_rfl), hsame x hs]
    · rw [hother x (by rintro rfl; exact hx List.prefix_rfl), hsame x hx]

theorem staged_of_made {loc : Location} (hw : start.WellFormed) (hp : Placed start p l name)
    (hnone : ∀ d, ¬ start.Reaches l d) (hm : start.Made fs (l ++ [hiddenName name]) loc) :
    ∃ dir, Staged start fs l name dir := by
  obtain ⟨hspells, hopen⟩ := hp.staging
  obtain ⟨dir, hdir⟩ := reaches_of_step (hm.leads false).walk_eq hp.hidden.1
  have hplace := (hm.leads false).walk_eq.symm.trans
    (hdir.step (fun hc => ne_empty_of_spells hspells (List.mem_append_left _ hc)) hp.hidden.isStep)
  obtain rfl : loc = dir ++ [hiddenName name] := by
    have hl := placeIn_location fs dir (hiddenName name)
    rwa [← Except.ok.inj hplace] at hl
  have habove : start.at? dir = none := by simpa using hm.above (by simpa using hnone)
  have hunder : ∀ {a : String} {x : Location}, dir ++ [a] <+: x → start.at? x = none := by
    intro a x hx
    refine hw.at?_below (by simp [habove]) ((List.prefix_append _ _).trans hx) ?_
    rintro rfl
    exact not_append_isPrefix hx
  have hway : ∀ {a : String} {x : Location}, dir ++ [a] <+: x → x ≠ dir ++ [hiddenName name] →
    fs.at? x = start.at? x := by
    intro a x hx hne
    refine hm.at?_apart fun hpre => hne ?_
    have hlen := hx.length_le
    refine hpre.eq_of_length_le ?_
    simp only [List.length_append, List.length_singleton] at hlen ⊢
    omega
  have hempty : ∀ x, dir ++ [hiddenName name] <+: x → x ≠ dir ++ [hiddenName name] → fs.at? x = none :=
    fun x hx hne => by rw [hway hx hne, hunder hx]
  refine ⟨dir, confined_of_fresh hm.wellFormed (hm.leads false) hempty, ?_, fun x hx => ?_, .inr ⟨hnone, habove⟩,
    hempty, fun x _ => (hm.way x).imp_right fun hx => hx.2⟩
  · obtain ⟨fs₁, hr, hfree, hsame⟩ := hm.last
    rw [List.dropLast_concat, List.dropLast_concat] at hr
    refine ⟨fs₁, hr, ?_, fun x hs _ => hsame x (by rintro rfl; exact hs List.prefix_rfl)⟩
    have hall : ∀ {a : String} {x : Location}, dir ++ [a] <+: x → fs₁.at? x = none := by
      intro a x hx
      by_cases he : x = dir ++ [hiddenName name]
      · rw [he, hfree]
      · rw [← hsame x he, hway hx he, hunder hx]
    exact fun x hx => hx.elim hall hall
  · refine hway hx ?_
    rintro rfl
    exact not_prefix_sibling (hiddenName_ne name).symm hx List.prefix_rfl

end SiteTree.Build
