import SiteTree.Proofs.FileSystem.Reaches

/-!
Making directories with the levels above them. New directories come where nothing was, and what
was asked for is there afterwards.
-/

namespace SiteTree.FileSystem

open SiteTree.Path

variable {fs fs' : FileSystem} {n : Nat} {cwd loc : Location} {l : List String} {p q : Path} {cause : Cause}

theorem makeDirectory_eq_ok : fs.makeDirectory cwd p = .ok fs' ↔ ∃ parent name slashed,
    fs.locate cwd p = .ok (.vacant parent name slashed) ∧ fs' = fs.put (parent ++ [name]) .directory := by
  rw [makeDirectory]
  cases fs.locate cwd p with
  | error cause => simp [bind, Except.bind]
  | ok place => cases place <;> simp [bind, Except.bind, eq_comm]

/-- The tree that is left behind, whether or not the change was made in full. -/
def left : Except (Cause × FileSystem) FileSystem → FileSystem
  | .ok fs => fs
  | .error (_, fs) => fs

/-- One level by itself. A directory that is there is as good as one that is made. -/
def makeLevel (cwd : Location) (p : Path) (fs : FileSystem) : Except (Cause × FileSystem) FileSystem :=
  match fs.makeDirectory cwd p with
  | .ok fs' => .ok fs'
  | .error cause => if fs.isDirectory cwd p then .ok fs else .error (cause, fs)

theorem makeLevel_made (hm : fs.makeDirectory cwd p = .ok fs') : makeLevel cwd p fs = .ok fs' := by
  rw [makeLevel, hm]

theorem makeLevel_refused (hm : fs.makeDirectory cwd p = .error cause) :
    makeLevel cwd p fs = if fs.isDirectory cwd p then .ok fs else .error (cause, fs) := by
  rw [makeLevel, hm]

theorem makeLevel_ok (h : makeLevel cwd p fs = .ok fs') :
    fs.makeDirectory cwd p = .ok fs' ∨ fs.isDirectory cwd p = true ∧ fs' = fs := by
  cases hm : fs.makeDirectory cwd p with
  | ok fs₁ =>
      rw [makeLevel_made hm] at h
      cases h
      exact .inl rfl
  | error cause =>
      rw [makeLevel_refused hm] at h
      split at h
      · next hd => cases h; exact .inr ⟨hd, rfl⟩
      · cases h

theorem left_makeLevel (fs : FileSystem) (cwd : Location) (p : Path) :
    fs.makeDirectory cwd p = .ok (left (makeLevel cwd p fs)) ∨ left (makeLevel cwd p fs) = fs := by
  cases hm : fs.makeDirectory cwd p with
  | ok fs₁ => exact .inl (by rw [makeLevel_made hm, left])
  | error cause =>
      rw [makeLevel_refused hm]
      split <;> exact .inr rfl

theorem makeLevels_above (hp : p.isEmpty = false) (hm : fs.makeDirectory cwd p = .error .missing)
    (hq : p.parent? = some q) : makeLevels cwd (n + 1) p fs = makeLevels cwd n q fs >>= makeLevel cwd p := by
  rw [makeLevels, if_neg (by simp [hp]), hm, hq]
  rfl

/-- Unless a level above is missing, the path's own level is all there is to make. -/
theorem makeLevels_last (hp : p.isEmpty = false) (hm : fs.makeDirectory cwd p ≠ .error .missing) :
    makeLevels cwd (n + 1) p fs = makeLevel cwd p fs := by
  rw [makeLevels, if_neg (by simp [hp]), makeLevel]
  split <;> simp_all

/-- What the making of each level keeps, and one that cannot be made for want of those above it. -/
theorem makeLevels_keeps {I : FileSystem → Prop} {D : Path → Prop}
    (hup : ∀ fs p q, I fs → D p → fs.makeDirectory cwd p = .error .missing → p.parent? = some q → D q)
    (hput : ∀ fs fs' p, I fs → D p → fs.makeDirectory cwd p = .ok fs' → I fs') (n : Nat) {p : Path}
    (hD : D p) (hI : I fs) : I (left (makeLevels cwd n p fs)) := by
  have hlevel : ∀ {fs p}, I fs → D p → I (left (makeLevel cwd p fs)) := by
    intro fs p hI hD
    rcases left_makeLevel fs cwd p with hm | hm
    · exact hput _ _ _ hI hD hm
    · rwa [hm]
  induction n generalizing p with
  | zero => exact hI
  | succ n ih =>
      cases he : p.isEmpty with
      | true => rw [makeLevels, if_pos he]; exact hI
      | false =>
          by_cases hm : fs.makeDirectory cwd p = .error .missing
          · cases hp : p.parent? with
            | none =>
                simp only [makeLevels, he, hm, hp]
                exact hI
            | some q =>
                have hq := ih (hup _ _ _ hI hD hm hp)
                rw [makeLevels_above he hm hp]
                generalize makeLevels cwd n q fs = above at hq ⊢
                cases above with
                | error e => exact hq
                | ok fs₁ => exact hlevel hq hD
          · rw [makeLevels_last he hm]
            exact hlevel hI hD

theorem makeDirectory_grows (h : fs.WellFormed) (hm : fs.makeDirectory cwd p = .ok fs') :
    fs'.WellFormed ∧ fs.Grows fs' := by
  obtain ⟨parent, name, slashed, hloc, rfl⟩ := makeDirectory_eq_ok.1 hm
  rw [locate] at hloc
  split at hloc
  · cases hloc
  · have hl := Leads.of_walk hloc
    obtain ⟨hd, -, hn⟩ := hl.vacancy
    refine ⟨h.put hd (hl.isName fun s hs => ?_), h.grows_put hn⟩
    rw [target_fst] at hs
    exact not_slash_of_mem_stretches hs

theorem makeLevel_grows (h : fs.WellFormed) (cwd : Location) (p : Path) : fs.Grows (left (makeLevel cwd p fs)) := by
  rcases left_makeLevel fs cwd p with hm | hm
  · exact (makeDirectory_grows h hm).2
  · rw [hm]
    exact .refl fs

theorem makeLevels_grows (h : fs.WellFormed) (cwd : Location) (n : Nat) (p : Path) :
    (left (makeLevels cwd n p fs)).WellFormed ∧ fs.Grows (left (makeLevels cwd n p fs)) := by
  refine makeLevels_keeps (I := fun fs' => fs'.WellFormed ∧ fs.Grows fs') (D := fun _ => True)
    (fun _ _ _ _ _ _ _ => trivial) ?_ _ trivial ⟨h, Grows.refl fs⟩
  rintro fs₁ fs₂ p ⟨hw, hg⟩ - hm
  obtain ⟨hw₂, hg₂⟩ := makeDirectory_grows hw hm
  exact ⟨hw₂, hg.trans hg₂⟩

theorem makeDirectories_grows (h : fs.WellFormed) (cwd : Location) (p : Path) :
    (left (fs.makeDirectories cwd p)).WellFormed ∧ fs.Grows (left (fs.makeDirectories cwd p)) :=
  makeLevels_grows h cwd _ p

theorem reaches_of_makeDirectory (h : fs.WellFormed) (hp : p.Spells l)
    (hm : fs.makeDirectory cwd p = .ok fs') :
    ∃ loc, fs'.Reaches l loc := by
  obtain ⟨parent, name, slashed, hloc, rfl⟩ := makeDirectory_eq_ok.1 hm
  rw [hp.locate_eq] at hloc
  have hl := Leads.of_walk hloc
  exact ⟨parent ++ [name], hl.fill (h.grows_put hl.vacancy.2.2) (at?_put_self fs _ (by simp)) true⟩

theorem reaches_of_makeLevel (h : fs.WellFormed) (hp : p.Spells l) (hm : makeLevel cwd p fs = .ok fs') :
    ∃ loc, fs'.Reaches l loc := by
  rcases makeLevel_ok hm with hm | ⟨hd, rfl⟩
  · exact reaches_of_makeDirectory h hp hm
  · exact (isDirectory_iff hp).1 hd

theorem reaches_of_makeLevels (h : fs.WellFormed) (hp : p.Spells l) (hm : makeLevels cwd n p fs = .ok fs') :
    ∃ loc, fs'.Reaches l loc := by
  cases n with
  | zero => cases hm
  | succ n =>
      have he := hp.isEmpty
      by_cases hd : fs.makeDirectory cwd p = .error .missing
      · cases hq : p.parent? with
        | none => simp only [makeLevels, he, hd, hq] at hm; cases hm
        | some q =>
            have hg := makeLevels_grows h cwd n q
            rw [makeLevels_above he hd hq] at hm
            generalize makeLevels cwd n q fs = above at hg hm
            cases above with
            | error e => cases hm
            | ok fs₁ => exact reaches_of_makeLevel hg.1 hp hm
      · rw [makeLevels_last he hd] at hm
        exact reaches_of_makeLevel h hp hm

end SiteTree.FileSystem
