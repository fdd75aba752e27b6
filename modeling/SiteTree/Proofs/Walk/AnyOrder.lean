import SiteTree.Proofs.Walk.Order

/-!
A walk into a fresh place does not depend on the order in which siblings are visited, if no target is above another and
no two files have the same one: each errand finds its target free in any order, so all of them are carried out.
-/

namespace SiteTree.Walk

open SiteTree.Action FileSystem SiteTree.Path

variable {limits : Limits} {options : Options} {dest : Path} {loc top : Location} {n : Nat} {rel target : List String}
  {scope : Scope} {fs fs' fs₁ : FileSystem} {w w₁ : World} {cwd x : Location} {p : Path}

/-- An empty directory, or a place where one can be made. -/
inductive Fresh (fs : FileSystem) (cwd : Location) (p : Path) (loc : Location) : Prop
  | empty (h : fs.LeadsTo cwd p loc) (hnone : ∀ s, fs.at? (loc ++ [s]) = none) : Fresh fs cwd p loc
  | vacant (h : fs.Vacates p loc) : Fresh fs cwd p loc

namespace Fresh

variable (h : Fresh fs cwd p loc)

include h

theorem ready : fs.LeadsTo cwd p loc ∨ fs.Vacates p loc := by
  cases h with
  | empty h => exact .inl h
  | vacant h => exact .inr h

theorem openTo (hw : fs.WellFormed) : fs.OpenTo loc := by
  cases h with
  | empty h => exact hw.openTo h.directory
  | vacant h => exact h.openTo

theorem nothing (hw : fs.WellFormed) (hx : loc <+: x) (hne : x ≠ loc) : fs.at? x = none := by
  cases h with
  | empty h hnone =>
      obtain ⟨r, rfl⟩ := hx
      cases r with
      | nil => exact absurd (List.append_nil loc) hne
      | cons s r =>
          rw [List.append_cons]
          by_cases hr : r = []
          · rw [hr, List.append_nil, hnone]
          · exact hw.at?_below (by rw [hnone]; exact nofun) (List.prefix_append _ _) (by simpa using hr)
  | vacant h => exact hw.at?_below (by rw [h.nothing]; exact nofun) hx hne

theorem linkFree (hw : fs.WellFormed) : fs.LinkFree loc := by
  intro y target hy hat
  by_cases he : y = loc
  · exact (he ▸ h.openTo hw).not_link target hat
  · cases (h.nothing hw hy he).symm.trans hat

end Fresh

theorem target_ne_nil {c : Contribution} (h : .ok c ∈ errands limits fs p loc n rel target scope) : c.target ≠ [] := by
  induction n generalizing rel target scope with
  | zero => cases List.mem_singleton.1 h
  | succ n ih =>
      rw [errands, List.mem_flatMap] at h
      obtain ⟨name, -, h⟩ := h
      rw [errandsOf] at h
      split at h
      · cases h
      · split at h
        · cases List.mem_singleton.1 h
        · obtain ⟨e, -, h⟩ := List.mem_flatMap.1 h
          rw [errandsOn] at h
          split at h
          · exact ih h
          · split at h
            · cases List.mem_singleton.1 h
            · cases List.mem_singleton.1 h
              simp

namespace Trip

variable {T : Trip} {astray : Prop} {D D' L all : List Errand} {c : Contribution} {bytes : ByteArray} {outcome : Option Failure}

/-- The files of a list are at their targets, below directories, and nothing else has changed. -/
structure Given (T : Trip) (D : List Errand) (fs : FileSystem) : Prop where
  file : ∀ c, .ok c ∈ D → fs.at? (T.top ++ c.target) = T.files.at? c.source
  above : ∀ c x, .ok c ∈ D → x <+: T.top ++ c.target → x ≠ T.top ++ c.target → fs.at? x = some .directory
  rest : ∀ x, (∀ c, .ok c ∈ D → ¬ x <+: T.top ++ c.target) → fs.at? x = T.files.at? x

namespace Given

theorem nil (h : fs = T.files) : T.Given [] fs := ⟨nofun, nofun, fun _ _ => by rw [h]⟩

theorem congr (h : T.Given D fs) (hsame : ∀ x, x ∈ D' ↔ x ∈ D) : T.Given D' fs :=
  ⟨fun c hc => h.file c ((hsame _).1 hc), fun c x hc => h.above c x ((hsame _).1 hc),
    fun x hx => h.rest x fun c hc => hx c ((hsame _).2 hc)⟩

/-- What has been given tells the whole tree. -/
theorem unique (h : T.Given D fs) (h' : T.Given D fs') (x : Location) : fs'.at? x = fs.at? x := by
  by_cases hx : ∃ c, .ok c ∈ D ∧ x <+: T.top ++ c.target
  · obtain ⟨c, hc, hpre⟩ := hx
    by_cases he : x = T.top ++ c.target
    · rw [he, h.file c hc, h'.file c hc]
    · rw [h.above c x hc hpre he, h'.above c x hc hpre he]
  · have hnot : ∀ c, .ok c ∈ D → ¬ x <+: T.top ++ c.target := fun c hc hpre => hx ⟨c, hc, hpre⟩
    rw [h.rest x hnot, h'.rest x hnot]

end Given

/-- Errands that do not get into each other's way: the destination is fresh, no target is above another, and those that
have one target have one file to give. -/
structure Compatible (T : Trip) (all : List Errand) : Prop where
  fresh : Fresh T.files T.cwd T.dest T.top
  nonempty : ∀ c, .ok c ∈ all → c.target ≠ []
  same : ∀ c c', .ok c ∈ all → .ok c' ∈ all → c.target = c'.target → c.source = c'.source
  apart : ∀ c c', .ok c ∈ all → .ok c' ∈ all → c.target <+: c'.target → c.target = c'.target

section

variable (hc : T.Compatible all) (hD : ∀ x ∈ D, x ∈ all) (hmem : .ok c ∈ all) (hg : T.Given D fs)

include hc hD hmem hg

/-- No file is in the way of a target. -/
theorem Given.openTo : fs.OpenTo (T.top ++ c.target.dropLast) := by
  intro y hy
  by_cases hx : ∃ c', .ok c' ∈ D ∧ y <+: T.top ++ c'.target
  · obtain ⟨c', hc', hpre⟩ := hx
    refine .inr (hg.above c' y hc' hpre ?_)
    rintro rfl
    have hpre' := (List.prefix_append_right_inj T.top).1 hy
    have he := hc.apart c' c (hD _ hc') hmem (hpre'.trans (List.dropLast_prefix _))
    have hlen := hpre'.length_le
    have hpos := List.length_pos_iff.2 (hc.nonempty c hmem)
    rw [he, List.length_dropLast] at hlen
    omega
  · rw [hg.rest y fun c' hc' hpre => hx ⟨c', hc', hpre⟩]
    rcases List.prefix_or_prefix_of_prefix hy (List.prefix_append T.top _) with hyt | hty
    · exact hc.fresh.openTo T.ready.wellFormed y hyt
    · by_cases he : y = T.top
      · exact hc.fresh.openTo T.ready.wellFormed y (he ▸ List.prefix_rfl)
      · exact .inl (hc.fresh.nothing T.ready.wellFormed hty he)

/-- Each errand is carried out, whatever has been given before. -/
theorem Given.step (hfile : T.files.at? c.source = some (.file bytes))
    (h : Delivers T.dest T.top c.target bytes fs outcome fs') : outcome = none ∧ T.Given (.ok c :: D) fs' := by
  have hnil := hc.nonempty c hmem
  have hall : ∀ x ∈ .ok c :: D, x ∈ all := List.forall_mem_cons.2 ⟨hmem, hD⟩
  cases h with
  | kept hsome =>
      -- What is there has been given, and so it has the same target.
      obtain ⟨c', hc', hpre⟩ : ∃ c', .ok c' ∈ D ∧ T.top ++ c.target <+: T.top ++ c'.target := by
        by_contra hnot
        rw [hg.rest _ fun c' hc' hpre => hnot ⟨c', hc', hpre⟩,
          hc.fresh.nothing T.ready.wellFormed (List.prefix_append _ _) (by simpa using hnil)] at hsome
        cases hsome
      have htarget := hc.apart c c' hmem (hD _ hc') ((List.prefix_append_right_inj _).1 hpre)
      refine ⟨rfl, fun d hd => ?_, fun d x hd => ?_, fun x hx => hg.rest x fun d hd => hx d (List.mem_cons_of_mem _ hd)⟩
      · rcases List.mem_cons.1 hd with he | hd
        · cases he
          rw [hc.same c c' hmem (hD _ hc') htarget, htarget]
          exact hg.file c' hc'
        · exact hg.file d hd
      · rcases List.mem_cons.1 hd with he | hd
        · cases he
          rw [htarget]
          exact hg.above c' x hc'
        · exact hg.above d x hd
  | refused hnone ho => exact absurd (hg.openTo hc hD hmem) ho
  | copied _ hnone ho hdep =>
      refine ⟨rfl, fun d hd => ?_, fun d x hd hpre hne => ?_, fun x hx => ?_⟩
      · have hd' := hall _ hd
        rw [hdep.at?_eq]
        split
        · next he =>
          rw [hc.same d c hd' hmem (List.append_cancel_left he), hfile]
        · next hne =>
          have hnot : ¬ T.top ++ d.target <+: T.top ++ c.target := fun hpre =>
            hne (by rw [hc.apart d c hd' hmem ((List.prefix_append_right_inj _).1 hpre)])
          rw [if_neg hnot]
          refine hg.file d ((List.mem_cons.1 hd).resolve_left fun he => hne ?_)
          cases he
          rfl
      · have hd' := hall _ hd
        rw [hdep.at?_eq, if_neg fun he => hne ?_]
        · split
          · rfl
          · next hnot =>
            refine hg.above d x ((List.mem_cons.1 hd).resolve_left fun he => hnot ?_) hpre hne
            cases he
            exact hpre
        · subst he
          rw [hc.apart c d hmem hd' ((List.prefix_append_right_inj _).1 hpre)]
      · have hnot := hx c List.mem_cons_self
        have hne : x ≠ T.top ++ c.target := fun he => hnot (he ▸ List.prefix_rfl)
        rw [hdep.at?_eq, if_neg hne, if_neg hnot]
        exact hg.rest x fun d hd => hx d (List.mem_cons_of_mem _ hd)

end

/-- Compatible errands are all carried out, in whichever order they come. -/
theorem Carries.given (hc : T.Compatible all) (hnames : ∀ x ∈ all, ∃ c, x = .ok c ∧ ∀ s ∈ c.target, IsName s)
    (h : T.Carries astray L fs outcome fs₁) (hL : ∀ x ∈ L, x ∈ all) (hD : ∀ x ∈ D, x ∈ all) (hg : T.Given D fs) :
    outcome = none ∧ T.Given (L ++ D) fs₁ := by
  induction h generalizing D with
  | done => exact ⟨rfl, hg⟩
  | fails =>
      obtain ⟨c, he, -⟩ := hnames _ (hL _ List.mem_cons_self)
      cases he
  | @gives c L bytes fs fs₁ fs₂ outcome hn hfile hdel _ ih =>
      have hmem := hL _ List.mem_cons_self
      obtain ⟨-, hg₁⟩ := hg.step hc hD hmem hfile hdel
      obtain ⟨hnone, hg₂⟩ := ih (fun x hx => hL x (List.mem_cons_of_mem _ hx)) (List.forall_mem_cons.2 ⟨hmem, hD⟩) hg₁
      refine ⟨hnone, hg₂.congr fun x => ?_⟩
      simp [or_left_comm]
  | refused hn hfile hdel =>
      obtain ⟨hnone, -⟩ := hg.step hc hD (hL _ List.mem_cons_self) hfile hdel
      cases hnone
  | strays ha hn =>
      obtain ⟨c, he, hnames⟩ := hnames _ (hL _ List.mem_cons_self)
      cases he
      exact absurd hnames hn

/-- If all is well, there is no failure among the errands, and every target is made of names. -/
theorem Carries.all_named (h : T.Carries False L fs outcome fs₁) (hnone : outcome = none) :
    ∀ x ∈ L, ∃ c, x = .ok c ∧ ∀ s ∈ c.target, IsName s := by
  induction h with
  | done => nofun
  | fails | refused => cases hnone
  | gives hn hfile _ _ ih => exact List.forall_mem_cons.2 ⟨⟨_, rfl, hn⟩, ih hnone⟩
  | strays ha hn => exact ha.elim

end Trip

/-- Sibling order does not matter. If a walk by name that only copies, from a source without links into a fresh place apart
from it, succeeds, no target is above another, and files with the same target are the same, then a walk in any order
succeeds and leaves the same tree. -/
theorem render_any_order (o : Order) (hw : w.files.WellFormed) (hlinks : options.links = [])
    (hsource : w.files.LeadsTo w.cwd options.sourceRoot loc) (hfree : w.files.LinkFree loc)
    (hdest : Fresh w.files w.cwd dest top) (hout : ¬ loc <+: top)
    (hnames : MeetsOnly IsName limits n options options.sourceRoot dest w)
    (hsame : ∀ c ∈ contributions limits w.files options.sourceRoot loc n [] [] options.scope,
      ∀ c' ∈ contributions limits w.files options.sourceRoot loc n [] [] options.scope,
        c.target = c'.target → c.source = c'.source)
    (happart : ∀ c ∈ contributions limits w.files options.sourceRoot loc n [] [] options.scope,
      ∀ c' ∈ contributions limits w.files options.sourceRoot loc n [] [] options.scope,
        c.target <+: c'.target → c.target = c'.target)
    (hrun : render limits n options options.sourceRoot dest w = .ok () w₁) :
    ∃ w₂, o.render limits n options options.sourceRoot dest w = .ok () w₂ ∧ ∀ x, w₂.files.at? x = w₁.files.at? x := by
  have hin : ¬ top <+: loc := fun hpre => by
    have hne : loc ≠ top := fun he => hout (he ▸ List.prefix_rfl)
    cases hsource.directory.symm.trans (hdest.nothing hw hpre hne)
  let T : Trip :=
    { limits, cwd := w.cwd, source := options.sourceRoot, loc, dest, top, files := w.files, linkFree := hfree, off := hin
      ready := ⟨hw, hsource, hdest.ready, hdest.linkFree hw, fun _ _ hx => hx, fun _ _ => .inl rfl⟩
      passed := fun rel he => absurd (he ▸ List.prefix_append loc rel) hout
      apart := fun _ => hout }
  have hrun' : render T.limits n options T.source T.dest w = .ok () w₁ := hrun
  obtain ⟨L, hL, hruns⟩ := T.walk_runs ⟨T.ready, rfl⟩ rfl hlinks .byName n fun _ => ⟨rfl, hnames⟩
  obtain rfl := hL.same rfl
  rw [Order.byName_render, Trip.Runs, failure?_ok hrun', after_ok hrun'] at hruns
  have hgiven := hruns.all_named rfl
  have hok := errands_eq_contributions fun x hx => (hgiven x hx).imp fun _ h => h.1
  have hmem : ∀ {c}, .ok c ∈ T.errands n [] [] options.scope →
      c ∈ contributions limits w.files options.sourceRoot loc n [] [] options.scope := by
    intro c hc
    rw [Trip.errands, hok] at hc
    obtain ⟨c', hc', he⟩ := List.mem_map.1 hc
    cases he
    exact hc'
  have hcompatible : T.Compatible (T.errands n [] [] options.scope) :=
    ⟨hdest, fun c hc => target_ne_nil hc, fun c c' hc hc' => hsame c (hmem hc) c' (hmem hc'),
      fun c c' hc hc' => happart c (hmem hc) c' (hmem hc')⟩
  have hnew : T.Given [] w.files := .nil rfl
  have hnone : ∀ x ∈ ([] : List Errand), x ∈ T.errands n [] [] options.scope := fun _ hx => absurd hx List.not_mem_nil
  obtain ⟨L', hL', hruns'⟩ := T.walk_runs ⟨T.ready, rfl⟩ rfl hlinks o n fun ha : ¬ True => absurd trivial ha
  obtain ⟨-, htree⟩ := hruns.given hcompatible hgiven (fun _ hx => hx) hnone hnew
  obtain ⟨hends, htree'⟩ := hruns'.given hcompatible hgiven (fun x hx => hL'.perm.mem_iff.1 hx) hnone hnew
  obtain ⟨_, w₂, hrun₂⟩ := failure?_eq_none.1 hends
  refine ⟨w₂, hrun₂, fun x => ?_⟩
  rw [after_ok hrun₂] at htree'
  exact htree.unique (htree'.congr fun y => by simp [hL'.perm.mem_iff]) x

/-- A note for each tag, and a file that each tag gives to the same place. -/
def tagShelf : World :=
  ⟨⟨[(["src", "[tag of tags]", "[tag].txt"], .file "note".toUTF8), (["src", "[tag of tags]", "all.txt"], .file "all".toUTF8),
    (["src", "[tag of tags]"], .directory), (["src", "z", "a.txt"], .file "x".toUTF8), (["src", "z"], .directory),
    (["src"], .directory)]⟩, [], []⟩

def shelve : Options :=
  ⟨⟨"/src"⟩, ⟨"/out"⟩, .ofPairs [("tags", .list [.text "a", .text "b"])], [], [], false, false⟩

theorem tagShelf_backwards : ∃ w₁ w₂, render ⟨.none, []⟩ 4 shelve ⟨"/src"⟩ ⟨"/out"⟩ tagShelf = .ok () w₁ ∧
    Order.backwards.render ⟨.none, []⟩ 4 shelve ⟨"/src"⟩ ⟨"/out"⟩ tagShelf = .ok () w₂ ∧
    ∀ x, w₂.files.at? x = w₁.files.at? x := by
  have hw : tagShelf.files.WellFormed := by decide +kernel
  have hspells : ∀ loc : Location, (∀ s ∈ loc, IsName s) → (pathOf loc).Spells loc := fun _ h => spells_pathOf h
  have hvacant : tagShelf.files.Vacates ⟨"/out"⟩ ["out"] :=
    ⟨hspells ["out"] (by decide), by decide, by decide +kernel, by decide +kernel⟩
  have hplain : MeetsPlain ⟨.none, []⟩ 4 shelve ⟨"/src"⟩ ⟨"/out"⟩ tagShelf := by decide +kernel
  obtain ⟨_, w₁, hrun⟩ := succeeds_iff.1 (show succeeds (render ⟨.none, []⟩ 4 shelve ⟨"/src"⟩ ⟨"/out"⟩) tagShelf = true by
    decide +kernel)
  obtain ⟨w₂, hrun₂, hsame⟩ := render_any_order .backwards hw (show shelve.links = [] from rfl)
    (leadsTo_of_spells hw (hspells ["src"] (by decide)) (by decide +kernel) _) (by decide +kernel)
    (.vacant hvacant) (by decide) (fun e he hloop => (hplain e he hloop).isName) (by decide +kernel) (by decide +kernel) hrun
  exact ⟨w₁, w₂, hrun, hrun₂, hsame⟩

end SiteTree.Walk
