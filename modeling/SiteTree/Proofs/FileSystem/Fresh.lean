import SiteTree.Proofs.FileSystem.Levels

/-!
A chain of fresh directories: what making a directory with the levels above it comes to if no
level is a double dot.
-/

namespace SiteTree.FileSystem

open SiteTree.Path

variable {fs fs' : FileSystem} {n : Nat} {cwd loc x : Location} {l : List String} {s name : String}
   {p q : Path} {cause : Cause}

/-- The stretches lead to a directory that was made, and all that was made lies on the way to it. -/
structure Made (fs fs' : FileSystem) (l : List String) (loc : Location) : Prop where
  leads : ∀ follow, fs'.Leads follow (maxLinks + 1) [] l (.found loc .directory)
  vacant : fs.at? loc = none
  way : ∀ x, fs'.at? x = fs.at? x ∨ x <+: loc ∧ fs.at? x = none ∧ fs'.at? x = some .directory
  wellFormed : fs'.WellFormed
  above : (∀ dir, ¬ fs.Reaches l.dropLast dir) → fs.at? loc.dropLast = none
  last : ∃ fs₁ : FileSystem, fs₁.Reaches l.dropLast loc.dropLast ∧ fs₁.at? loc = none ∧ ∀ x, x ≠ loc →
    fs'.at? x = fs₁.at? x

theorem Made.at?_apart (h : fs.Made fs' l loc) (hx : ¬ x <+: loc) : fs'.at? x = fs.at? x :=
  (h.way x).resolve_right fun hc => hx hc.1

theorem not_vacant_of_nil {slashed : Bool} {parent : Location} :
    fs.resolveSteps false [] [] ≠ .ok (.vacant parent name slashed) := by
  intro h
  cases Leads.of_walk h

theorem exists_step (h : p.Spells l) (hup : ".." ∉ l) (hne : l ≠ []) :
    ∃ l₀ s, l = l₀ ++ [s] ∧ IsName s := by
  obtain ⟨l₀, s, rfl⟩ := (List.eq_nil_or_concat' l).resolve_left hne
  have hs : s ∈ l₀ ++ [s] := by simp
  exact ⟨l₀, s, rfl, h.isName hs fun he => hup (he ▸ hs)⟩

theorem made_of_makeDirectory (h : fs.WellFormed) (hp : p.Spells l) (hup : ".." ∉ l)
    (hm : fs.makeDirectory cwd p = .ok fs') : ∃ loc, fs.Made fs' l loc := by
  obtain ⟨parent, name, slashed, hloc, rfl⟩ := makeDirectory_eq_ok.1 hm
  rw [hp.locate_eq] at hloc
  have hl := Leads.of_walk hloc
  obtain ⟨hd, -, hn⟩ := hl.vacancy
  have hname : IsName name := hl.isName fun s hs => not_slash_of_mem_stretches (hp.stretches ▸ hs)
  have hat := at?_put_self fs .directory
    (List.append_ne_nil_of_right_ne_nil parent (List.cons_ne_nil name []))
  have hother : ∀ x, x ≠ parent ++ [name] → (fs.put (parent ++ [name]) .directory).at? x = fs.at? x :=
    fun x hx => h.at?_put (by simp [hn]) hx
  have hreach : fs.Reaches l.dropLast parent := by
    by_cases hnil : l = []
    · subst hnil
      exact absurd hloc not_vacant_of_nil
    · obtain ⟨l₀, s, rfl, hs⟩ := exists_step hp hup hnil
      have hempty : "" ∉ l₀ := fun hc => ne_empty_of_spells hp (List.mem_append_left _ hc)
      obtain ⟨dir, hdir⟩ := reaches_of_step hloc hs.1
      rw [hdir.step hempty hs.isStep, placeIn] at hloc
      rw [List.dropLast_concat]
      split at hloc <;> cases hloc
      exact hdir
  refine ⟨parent ++ [name], fun follow => hl.fill (h.grows_put hn) hat follow, hn, fun x => ?_,
    h.put hd hname, ?_, ?_⟩
  · by_cases hx : x = parent ++ [name]
    · subst hx; exact .inr ⟨List.prefix_rfl, hn, hat⟩
    · exact .inl (hother x hx)
  · exact fun hnone => absurd hreach (hnone parent)
  · exact ⟨fs, by rwa [List.dropLast_concat], hn, hother⟩

theorem Made.child (h : fs.Made fs' l loc) (cwd : Location) (hw : fs.WellFormed) (hp : p.Spells (l ++ [s]))
    (hs : IsName s) :
    ∃ fs'', fs'.makeDirectory cwd p = .ok fs'' ∧ fs.Made fs'' (l ++ [s]) (loc ++ [s]) := by
  have hempty : "" ∉ l := fun hc => ne_empty_of_spells hp (by simp [hc])
  have hnone : fs.at? (loc ++ [s]) = none := by
    by_contra hc
    have hd := hw.parent (Option.isSome_iff_ne_none.2 hc)
    rw [h.vacant] at hd
    cases hd
  have hfree : fs'.at? (loc ++ [s]) = none := by
    rw [h.at?_apart not_append_isPrefix, hnone]
  have hreach : fs'.Reaches l loc := h.leads true
  have hloc : fs'.locate cwd p = .ok (.vacant loc s false) := by
    rw [hp.locate_eq, hreach.step hempty hs.isStep, placeIn, hfree]
  have hl := hloc
  rw [hp.locate_eq] at hl
  have hat := at?_put_self fs' .directory (List.append_ne_nil_of_right_ne_nil loc (List.cons_ne_nil s []))
  refine ⟨_, makeDirectory_eq_ok.2 ⟨loc, s, false, hloc, rfl⟩, ?_, hnone, fun x => ?_,
    h.wellFormed.put hreach.directory hs, fun _ => by rw [List.dropLast_concat, h.vacant],
    fs', by rwa [List.dropLast_concat, List.dropLast_concat], hfree,
    fun x hx => h.wellFormed.at?_put (by simp [hfree]) hx⟩
  · exact fun follow => (Leads.of_walk hl).fill (h.wellFormed.grows_put hfree) hat follow
  · by_cases hx : x = loc ++ [s]
    · subst hx; exact .inr ⟨List.prefix_rfl, hnone, hat⟩
    · rw [h.wellFormed.at?_put (by simp [hfree]) hx]
      exact (h.way x).imp_right fun hx => ⟨hx.1.trans (List.prefix_append _ _), hx.2⟩

theorem makeDirectory_ne_missing (hr : fs.Reaches l loc) (hp : p.Spells (l ++ [s])) (hs : IsStep s) :
    fs.makeDirectory cwd p ≠ .error .missing := by
  have hempty : "" ∉ l := fun hc => ne_empty_of_spells hp (by simp [hc])
  rw [makeDirectory, hp.locate_eq, hr.step hempty hs, placeIn]
  cases fs.at? (loc ++ [s]) <;> simp [bind, Except.bind]

/-- The level of the root is there. -/
theorem makeDirectory_top (hp : p.Spells []) : fs.makeDirectory cwd p = .error .taken := by
  have hroot : fs.resolveSteps false [] [] = .ok (.found [] .directory) := Leads.walk_eq (.stop rfl)
  rw [makeDirectory, hp.locate_eq, hroot]
  rfl

theorem makeLevel_spelled (h : fs.WellFormed) (hp : p.Spells l) (hup : ".." ∉ l) :
    (∃ cause, makeLevel cwd p fs = .error (cause, fs)) ∨
      (makeLevel cwd p fs = .ok fs ∧ ∃ loc, fs.Reaches l loc) ∨
      ∃ fs' loc, makeLevel cwd p fs = .ok fs' ∧ fs.Made fs' l loc := by
  cases hm : fs.makeDirectory cwd p with
  | ok fs' =>
      obtain ⟨loc, hmade⟩ := made_of_makeDirectory h hp hup hm
      exact .inr (.inr ⟨fs', loc, makeLevel_made hm, hmade⟩)
  | error cause =>
      rw [makeLevel_refused hm]
      split
      · next hd => exact .inr (.inl ⟨rfl, (isDirectory_iff hp).1 hd⟩)
      · exact .inl ⟨cause, rfl⟩

/-- Either nothing is made, or all of it. -/
theorem makeLevels_spelled (h : fs.WellFormed) (n : Nat) {p : Path} {l : List String} (hp : p.Spells l)
    (hup : ".." ∉ l) :
    (∃ cause, makeLevels cwd n p fs = .error (cause, fs)) ∨
      (makeLevels cwd n p fs = .ok fs ∧ ∃ loc, fs.Reaches l loc) ∨
      ∃ fs' loc, makeLevels cwd n p fs = .ok fs' ∧ fs.Made fs' l loc := by
  induction n generalizing p l with
  | zero => exact .inl ⟨_, rfl⟩
  | succ n ih =>
      have he := hp.isEmpty
      by_cases hm : fs.makeDirectory cwd p = .error .missing
      · have hnil : l ≠ [] := by
          rintro rfl
          cases (makeDirectory_top hp).symm.trans hm
        obtain ⟨l₀, s, rfl, hs⟩ := exists_step hp hup hnil
        obtain ⟨q, hq, hspells⟩ := hp.parent
        have hup₀ : ".." ∉ l₀ := fun hc => hup (List.mem_append_left _ hc)
        rw [makeLevels_above he hm hq]
        rcases ih hspells hup₀ with ⟨cause, hl⟩ | ⟨hl, loc, hr⟩ | ⟨fs', loc, hl, hmade⟩
        · rw [hl]
          exact .inl ⟨cause, rfl⟩
        · exact absurd hm (makeDirectory_ne_missing hr hp hs.isStep)
        · obtain ⟨fs'', hm', hmade'⟩ := hmade.child cwd h hp hs
          rw [hl]
          exact .inr (.inr ⟨fs'', loc ++ [s], makeLevel_made hm', hmade'⟩)
      · rw [makeLevels_last he hm]
        exact makeLevel_spelled h hp hup

theorem makeDirectories_spelled (h : fs.WellFormed) (cwd : Location) (hp : p.Spells l) (hup : ".." ∉ l) :
    (∃ cause, fs.makeDirectories cwd p = .error (cause, fs)) ∨
      (fs.makeDirectories cwd p = .ok fs ∧ ∃ loc, fs.Reaches l loc) ∨
      ∃ fs' loc, fs.makeDirectories cwd p = .ok fs' ∧ fs.Made fs' l loc :=
  makeLevels_spelled h _ hp hup

end SiteTree.FileSystem
