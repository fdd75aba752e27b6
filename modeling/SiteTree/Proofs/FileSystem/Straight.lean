import SiteTree.Proofs.FileSystem.Fresh
import SiteTree.Proofs.FileSystem.Names
import SiteTree.Proofs.FileSystem.Way

/-!
Paths that spell the place they are meant for: no link is on the way down. What such a path leads to, and that all
levels above it can be made unless a file is in the way.
-/

namespace SiteTree.FileSystem

open SiteTree.Path

variable {fs fs' fs₁ : FileSystem} {follow : Bool} {n : Nat} {cwd loc x y : Location} {l rest : List String} {s t : String}
  {node : FileNode} {p : Path} {bytes : ByteArray} {I : Location → Prop}

/-- On the way down there are only directories, as far as there is something. -/
def OpenTo (fs : FileSystem) (x : Location) : Prop := ∀ y, y <+: x → fs.at? y = none ∨ fs.at? y = some .directory

instance : DecidablePred fs.OpenTo := fun x =>
  decidable_of_iff (∀ y ∈ x.inits, fs.at? y = none ∨ fs.at? y = some .directory) (by simp [OpenTo, List.mem_inits])

theorem OpenTo.above (h : fs.OpenTo x) (hy : y <+: x) : fs.OpenTo y := fun z hz => h z (hz.trans hy)

theorem WellFormed.openTo (h : fs.WellFormed) (hx : fs.at? x = some .directory) : fs.OpenTo x :=
  fun _ hy => .inr (h.directory_above hx hy)

theorem OpenTo.child (h : fs.OpenTo x) (hx : fs.at? (x ++ [s]) = none ∨ fs.at? (x ++ [s]) = some .directory) :
    fs.OpenTo (x ++ [s]) := by
  intro y hy
  rcases List.prefix_concat_iff.1 hy with rfl | hy
  · exact hx
  · exact h y hy

theorem OpenTo.not_file (h : fs.OpenTo x) (bytes : ByteArray) : fs.at? x ≠ some (.file bytes) := by
  intro hat
  rcases h x List.prefix_rfl with he | he
  · cases hat.symm.trans he
  · cases hat.symm.trans he

theorem OpenTo.not_link (h : fs.OpenTo x) (target : String) : fs.at? x ≠ some (.link target) := by
  intro hat
  rcases h x List.prefix_rfl with he | he
  · cases hat.symm.trans he
  · cases hat.symm.trans he

/-- Something on the way down is no directory. -/
theorem exists_of_not_openTo (h : ¬ fs.OpenTo x) : ∃ y node, y <+: x ∧ fs.at? y = some node ∧ node ≠ .directory := by
  rw [OpenTo] at h
  push Not at h
  obtain ⟨y, hy, hsome, hdir⟩ := h
  obtain ⟨node, hnode⟩ := Option.ne_none_iff_exists'.1 hsome
  exact ⟨y, node, hy, hnode, fun he => hdir (he ▸ hnode)⟩

/-- If there is no directory at a location, there is a last one on the way down. -/
theorem exists_last_directory (h : fs.at? x ≠ some .directory) : ∃ y s rest, x = y ++ s :: rest ∧
    fs.at? y = some .directory ∧ fs.at? (y ++ [s]) ≠ some .directory := by
  induction x using List.reverseRecOn with
  | nil => exact absurd rfl h
  | append_singleton x s ih =>
      by_cases hx : fs.at? x = some .directory
      · exact ⟨x, s, [], rfl, hx, h⟩
      · obtain ⟨y, t, rest, rfl, hy, ht⟩ := ih hx
        exact ⟨y, t, rest ++ [s], by simp, hy, ht⟩

section

variable (hx : fs.at? x = some .directory) (hs : IsStep s) (hrest : rest ≠ [])

include hx hs hrest

theorem walk_missing (hslash : rest ≠ [""]) (hn : fs.at? (x ++ [s]) = none) :
    fs.walk follow (n + 1) x (s :: rest) = .error .missing := by
  rw [walk_succ, walkWith]
  simp [hx, hs.1, hs.2.1, hs.2.2, hn, hrest, hslash]

theorem walk_blocked (hn : fs.at? (x ++ [s]) = some (.file bytes)) :
    fs.walk follow (n + 1) x (s :: rest) = .error .notDirectory := by
  obtain ⟨t, rest, rfl⟩ := List.exists_cons_of_ne_nil hrest
  rw [walk_succ, walkWith]
  simp [hx, hs.1, hs.2.1, hs.2.2, hn, walkWith]

end

theorem resolveSteps_child (follow : Bool) (h : fs.WellFormed) (hx : fs.at? x = some .directory) (s : String)
    (rest : List String) : ∃ m, fs.resolveSteps follow [] (x ++ s :: rest) = fs.walk follow (m + 1) x (s :: rest) := by
  have hempty : "" ∉ x := fun hc => (h.isName_of_mem (by rw [hx]; rfl) "" hc).1 rfl
  exact (h.reaches_self hx).walk_below follow hempty (by simp)

section

variable (h : fs.WellFormed) (hx : fs.at? x = some .directory) (hs : IsStep s) (hrest : rest ≠ [])

include h hx hs hrest

theorem resolveSteps_missing (hslash : rest ≠ [""]) (hn : fs.at? (x ++ [s]) = none) :
    fs.resolveSteps follow [] (x ++ s :: rest) = .error .missing := by
  obtain ⟨m, hm⟩ := resolveSteps_child follow h hx s rest
  rw [hm, walk_missing hx hs hrest hslash hn]

theorem resolveSteps_blocked (hn : fs.at? (x ++ [s]) = some (.file bytes)) :
    fs.resolveSteps follow [] (x ++ s :: rest) = .error .notDirectory := by
  obtain ⟨m, hm⟩ := resolveSteps_child follow h hx s rest
  rw [hm, walk_blocked hx hs hrest hn]

end

/-- Nothing is found below a way down that ends early. -/
theorem OpenTo.missing (ho : fs.OpenTo x) (h : fs.WellFormed) (hx : fs.at? x ≠ some .directory) (hsteps : ∀ t ∈ x, IsStep t)
    (hs : s ≠ "") : fs.resolveSteps follow [] (x ++ [s]) = .error .missing := by
  obtain ⟨y, t, rest, rfl, hy, ht⟩ := exists_last_directory hx
  have hnone : fs.at? (y ++ [t]) = none := (ho _ (by simp)).resolve_right ht
  rw [List.append_assoc, List.cons_append]
  refine resolveSteps_missing h hy (hsteps t (by simp)) (by simp) (fun he => hs ?_) hnone
  exact List.mem_singleton.1 (he ▸ (by simp : s ∈ rest ++ [s]))

/-- No way goes through a file. -/
theorem not_reaches_of_file (h : fs.WellFormed) (hy : fs.at? y = some (.file bytes)) (hyl : y <+: l) : ¬ fs.Reaches l loc := by
  intro hr
  obtain ⟨rest, rfl⟩ := hyl
  rcases List.eq_nil_or_concat' y with rfl | ⟨x, s, rfl⟩
  · cases hy
  have hsome : (fs.at? (x ++ [s])).isSome := by rw [hy]; rfl
  by_cases hrest : rest = []
  · rw [hrest, List.append_nil] at hr
    cases (h.directory_of_reaches hy nofun hr).1
  · rw [List.append_assoc] at hr
    cases (resolveSteps_blocked h (h.parent hsome) (h.isName hsome).isStep hrest hy).symm.trans hr.walk_eq

section

variable (h : fs.LeadsTo cwd p loc)

include h

theorem LeadsTo.makeDirectory_taken : fs.makeDirectory cwd p = .error .taken := by
  obtain ⟨place, hplace, hfound⟩ := h.2.exists_unfollowed
  have hloc : fs.locate cwd p = .ok place := by
    rw [locate, isEmpty_eq_false h.1, if_neg Bool.false_ne_true, target_fst]
    exact hplace.walk_eq
  rw [makeDirectory, hloc]
  rcases hfound with rfl | ⟨loc', target, rfl⟩
  · rfl
  · rfl

theorem LeadsTo.makeLevels_there (n : Nat) : makeLevels cwd (n + 1) p fs = .ok fs := by
  have hd : fs.isDirectory cwd p = true := by
    rw [isDirectory, leadsTo_iff.1 h]
    rfl
  rw [makeLevels_last (isEmpty_eq_false h.1) (by simp [h.makeDirectory_taken]), makeLevel_refused h.makeDirectory_taken, if_pos hd]

end

/-- A directory put where nothing was, with the directories that are above it already. -/
theorem WellFormed.put_level (h : fs.WellFormed) (hx : fs.at? x = some .directory) (hs : IsName s)
    (hnone : fs.at? (x ++ [s]) = none) : (fs.put (x ++ [s]) .directory).WellFormed ∧
      ∀ y, (fs.put (x ++ [s]) .directory).at? y = if y <+: x ++ [s] then some .directory else fs.at? y := by
  refine ⟨h.put hx hs, fun y => ?_⟩
  by_cases hy : y = x ++ [s]
  · rw [hy, if_pos List.prefix_rfl, at?_put_self _ _ (by simp)]
  · rw [h.at?_put (by simp [hnone]) hy]
    split
    · next hpre => exact h.directory_above hx ((List.prefix_concat_iff.1 hpre).resolve_left hy)
    · rfl

/-- One level more. -/
theorem at?_levels (hat : ∀ y, fs₁.at? y = if y <+: x then some .directory else fs.at? y)
    (hlast : ∀ y, fs'.at? y = if y <+: x ++ [s] then some .directory else fs₁.at? y) (y : Location) :
    fs'.at? y = if y <+: x ++ [s] then some .directory else fs.at? y := by
  rw [hlast, hat]
  by_cases hy : y <+: x ++ [s]
  · rw [if_pos hy, if_pos hy]
  · rw [if_neg hy, if_neg hy, if_neg fun hc => hy (hc.trans (List.prefix_append _ _))]

/-- The levels above a place, and the place itself, can all be made. -/
theorem OpenTo.makeLevels (ho : fs.OpenTo x) (h : fs.WellFormed) (hp : p.Spells x) (hn : ∀ s ∈ x, IsName s)
    (hlen : x.length < n) : ∃ fs', makeLevels cwd n p fs = .ok fs' ∧ fs'.WellFormed ∧
      ∀ y, fs'.at? y = if y <+: x then some .directory else fs.at? y := by
  induction n generalizing p x with
  | zero => cases hlen
  | succ n ih =>
      have he := hp.isEmpty
      by_cases hd : fs.at? x = some .directory
      · refine ⟨fs, (leadsTo_of_spells h hp hd cwd).makeLevels_there n, h, fun y => ?_⟩
        split
        · next hy => exact h.directory_above hd hy
        · rfl
      have hnone : fs.at? x = none := (ho x List.prefix_rfl).resolve_right hd
      obtain ⟨x, s, rfl⟩ := (List.eq_nil_or_concat' x).resolve_left (by rintro rfl; exact hd rfl)
      have hname : IsName s := hn s (by simp)
      have hempty : "" ∉ x := fun hc => (hn "" (by simp [hc])).1 rfl
      have hmake : ∀ {fs₁ : FileSystem}, fs₁.WellFormed → fs₁.at? x = some .directory → fs₁.at? (x ++ [s]) = none →
          fs₁.makeDirectory cwd p = .ok (fs₁.put (x ++ [s]) .directory) := by
        intro fs₁ h₁ hx₁ hnone₁
        refine makeDirectory_eq_ok.2 ⟨x, s, false, ?_, rfl⟩
        rw [hp.locate_eq, (h₁.reaches_self hx₁).step hempty hname.isStep, placeIn, hnone₁]
      by_cases hx : fs.at? x = some .directory
      · refine ⟨_, ?_, h.put_level hx hname hnone⟩
        rw [makeLevels_last he (by simp [hmake h hx hnone]), makeLevel_made (hmake h hx hnone)]
      · have hmissing : fs.makeDirectory cwd p = .error .missing := by
          rw [makeDirectory, hp.locate_eq,
            (ho.above (List.prefix_append _ _)).missing h hx (fun t ht => (hn t (by simp [ht])).isStep) hname.1]
          rfl
        obtain ⟨q, hq, hspells⟩ := hp.parent
        rw [List.length_append, List.length_singleton] at hlen
        obtain ⟨fs₁, hlevels, h₁, hat⟩ := ih (ho.above (List.prefix_append _ _)) hspells
          (fun t ht => hn t (by simp [ht])) (by omega)
        have hx₁ : fs₁.at? x = some .directory := by rw [hat, if_pos List.prefix_rfl]
        have hnone₁ : fs₁.at? (x ++ [s]) = none := by rw [hat, if_neg not_append_isPrefix, hnone]
        obtain ⟨h₂, hlast⟩ := h₁.put_level hx₁ hname hnone₁
        refine ⟨_, ?_, h₂, at?_levels hat hlast⟩
        rw [makeLevels_above he hmissing hq, hlevels]
        exact makeLevel_made (hmake h₁ hx₁ hnone₁)

theorem OpenTo.makeDirectories (ho : fs.OpenTo x) (h : fs.WellFormed) (cwd : Location) (hp : p.Spells x)
    (hn : ∀ s ∈ x, IsName s) : ∃ fs', fs.makeDirectories cwd p = .ok fs' ∧ fs'.WellFormed ∧
      ∀ y, fs'.at? y = if y <+: x then some .directory else fs.at? y :=
  ho.makeLevels h hp hn (by rw [hp.components, List.length_cons, List.length_map]; omega)

/-- Nothing can be made below a file. -/
theorem makeDirectories_blocked (h : fs.WellFormed) (hp : p.Spells l) (hy : fs.at? y = some (.file bytes)) (hyl : y <+: l) :
    ∃ e, fs.makeDirectories cwd p = .error e := by
  cases hm : fs.makeDirectories cwd p with
  | error e => exact ⟨e, rfl⟩
  | ok fs' =>
      obtain ⟨hw, hg⟩ := makeDirectories_grows h cwd p
      rw [hm] at hw hg
      obtain ⟨loc, hr⟩ := reaches_of_makeLevels h hp hm
      exact absurd hr (not_reaches_of_file hw (hg.at?_eq hy) hyl)

section

variable (hp : p.Spells x) (hn : ∀ s ∈ x, IsStep s)

include hp hn

/-- Without links the way to a place goes straight down. -/
theorem wayTo_straight (hlink : ∀ y ∈ fs.wayTo cwd p, ∀ target, y <+: x → fs.at? y ≠ some (.link target))
    (hy : y ∈ fs.wayTo cwd p) : y <+: x := by
  obtain ⟨r, hr⟩ := hp.absolute
  have hstart : startOf cwd p.text.toList = [] := by simp [startOf, hr]
  have hsteps : ∀ t ∈ steps p.text.toList, t = "" ∨ IsStep t := by
    intro t ht
    by_cases he : t = ""
    · exact .inl he
    · refine .inr (hn t ?_)
      rw [← hp.stretches, ← filter_steps]
      exact List.mem_filter.2 ⟨ht, by simpa using he⟩
  simp only [wayTo, hstart] at hlink hy
  have hdown : y <+: [] ++ (steps p.text.toList).filter (· ≠ "") :=
    way_names (by rwa [List.nil_append, filter_steps, hp.stretches]) hsteps hy
  rwa [List.nil_append, filter_steps, hp.stretches] at hdown

variable (hlink : ∀ y target, y <+: x → fs.at? y ≠ some (.link target))

include hlink

theorem avoids_unlinked (hI : ∀ y, y <+: x → ¬ I y) (cwd : Location) : Avoids I fs cwd p :=
  fun y hy => hI y (wayTo_straight hp hn (fun z _ target => hlink z target) hy)

/-- What is found is found where the path says. -/
theorem found_unlinked (hf : fs.found cwd p = .ok (loc, node)) : loc = x := by
  have hr := found_eq_ok.1 hf
  have hdown : ∀ {loc node}, fs.Leads true (maxLinks + 1) [] x (.found loc node) → loc = x := fun hl =>
    hl.location_names (fun y target _ hy => hlink y target hy) hn
  rcases hp.resolve_eq fs cwd true with he | ⟨-, he⟩
  · rw [he] at hr
    exact hdown (.of_walk hr)
  · rw [he] at hr
    obtain ⟨dir, hdir⟩ := (Leads.of_walk hr).walk_split (.inr ⟨loc, node, rfl⟩)
    have hself := found_eq_ok.2 (Reaches.resolve hdir hp cwd)
    cases hf.symm.trans hself
    exact hdown hdir

end

end SiteTree.FileSystem
