import SiteTree.Proofs.FileSystem.Removal

/-!
Trees without links: every path denotes what its stretches say, and every change stays below the
paths that it is given.
-/

namespace SiteTree.FileSystem

open SiteTree.Path

variable {fs fs' fs₀ : FileSystem} {follow : Bool} {cwd root loc x : Location} {base l m : List String}
  {p q : Path} {place : Place} {bytes : ByteArray}

/-- What an absolute path denotes where there are no links. -/
def settled (p : Path) : Location := settle [] (stretches p.text.toList)

theorem settled_eq (hp : p.Spells l) : settled p = settle [] l := by rw [settled, hp.stretches]

theorem locate_settle (hfree : fs.LinkFree []) (hp : p.Spells l) (h : fs.locate cwd p = .ok place) :
    place.location = settle [] l := by
  rw [hp.locate_eq] at h
  exact (Leads.of_walk h).location_settle hfree

theorem resolve_settle (hfree : fs.LinkFree []) (hp : p.Spells l) (h : fs.resolve cwd follow p = .ok place) :
    place.location = settle [] l := by
  rcases hp.resolve_eq fs cwd follow with he | ⟨-, he⟩
  · exact (Leads.of_walk (he.symm.trans h)).location_settle hfree
  · rw [← settle_empty]
    exact (Leads.of_walk (he.symm.trans h)).location_settle hfree

theorem stretches_of_target_root (h : (target p).2 = .root) : stretches p.text.toList = [] := by
  rw [← target_fst]
  rw [target] at h ⊢
  simp only at h ⊢
  split at h
  · next hl => exact List.getLast?_eq_none_iff.1 hl
  · cases h
  · cases h
  · cases h

theorem removeDirectory_outside (cwd : Location) (hfree : fs.LinkFree []) (hp : p.Spells l)
    (hx : ¬ settle [] l <+: x) :
    (left (fs.removeDirectory cwd p)).at? x = fs.at? x := by
  cases hr : fs.resolve cwd false p with
  | error cause => rw [removeDirectory_error hr]; rfl
  | ok place =>
      have hloc := resolve_settle hfree hp hr
      cases place with
      | vacant dir name slashed => rw [removeDirectory, hr]; rfl
      | found loc node =>
          replace hloc : loc = settle [] l := hloc
          rw [← hloc] at hx
          have hremove : (fs.remove loc).at? x = fs.at? x := at?_remove_apart hx
          have hput : ((fs.remove loc).put loc .directory).at? x = fs.at? x := by
            rw [at?_put_apart hx, hremove]
          cases node with
          | file bytes => rw [removeDirectory, hr]; rfl
          | link target => rw [removeDirectory, hr]; exact hremove
          | directory =>
              rw [removeDirectory, hr]
              simp only
              split
              · next ht =>
                have hnil := stretches_of_target_root ht
                rw [hp.stretches] at hnil
                rw [hloc, hnil] at hx
                exact absurd List.nil_prefix hx
              · exact hput
              · exact hput
              · split
                · exact hput
                · exact hremove

theorem rename_outside (hfree : fs.LinkFree []) (hp : p.Spells l) (hne : settle [] l ≠ []) (hq : q.Spells m)
    (h : fs.rename cwd p q = .ok fs') :
    (∀ x, ¬ settle [] l <+: x → ¬ settle [] m <+: x → fs'.at? x = fs.at? x) ∧
      ∀ x, settle [] l <+: x → ¬ settle [] m <+: x → fs'.at? x = none := by
  obtain ⟨start, node, place, hs, hd, hcase⟩ := rename_ok h
  have hstart : start = settle [] l := locate_settle hfree hp hs
  have hgoal := locate_settle hfree hq hd
  rw [← hstart, ← hgoal]
  rcases hcase with ⟨rfl, he⟩ | ⟨rfl, -, -⟩
  · rw [he]
    exact ⟨fun x _ _ => rfl, fun x hx hn => absurd hx hn⟩
  · refine ⟨fun x hx hn => at?_move_apart hx hn, fun x hx hn => at?_move_old hx ?_ hn⟩
    rintro rfl
    exact hne (hstart.symm.trans (List.prefix_nil.1 hx))

theorem Confined.linkFree_all (h : Confined base root fs₀ fs) (hfree : fs₀.LinkFree []) : fs.LinkFree [] := by
  intro x target _ hl
  by_cases hx : root <+: x
  · exact h.linkFree x target hx hl
  · exact hfree x target List.nil_prefix (h.within x hx ▸ hl)

theorem confined_of_makeDirectories (hw : fs.WellFormed) (hfree : fs.LinkFree []) (hp : p.Spells l)
    (h : fs.makeDirectories cwd p = .ok fs') : Confined l (settle [] l) fs' fs' ∧ fs'.LinkFree [] := by
  obtain ⟨hw', hg⟩ := makeDirectories_grows hw cwd p
  rw [h] at hw' hg
  have hfree' : fs'.LinkFree [] := hg.linkFree hfree
  obtain ⟨loc, hr⟩ := reaches_of_makeLevels hw hp h
  have hloc : loc = settle [] l := Leads.location_settle hr hfree'
  subst hloc
  exact ⟨⟨hw', hr.unfollowed hfree', hfree'.below List.nil_prefix, fun _ _ => rfl⟩, hfree'⟩

end SiteTree.FileSystem
