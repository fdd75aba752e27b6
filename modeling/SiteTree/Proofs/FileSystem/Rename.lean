import SiteTree.Proofs.FileSystem.Confined

/-!
Renaming: what a move needs to be made, and that a file moved inside a directory stays there.
-/

namespace SiteTree.FileSystem

open SiteTree.Path

variable {fs fs' fs₀ : FileSystem} {cwd root start goal parent x : Location}
    {base : List String} {name : String}
  {node : FileNode} {old new : Path} {place : Place} {bytes : ByteArray}

theorem locate_leads (h : fs.locate cwd old = .ok place) :
    fs.Leads false (maxLinks + 1) (startOf cwd old.text.toList) (stretches old.text.toList) place := by
  rw [locate] at h
  split at h
  · cases h
  · rw [target_fst] at h
    exact .of_walk h

/-- A rename that succeeds has moved something, unless both paths denote one place. -/
theorem rename_ok (h : fs.rename cwd old new = .ok fs') : ∃ start node place,
    fs.locate cwd old = .ok (.found start node) ∧ fs.locate cwd new = .ok place ∧
      (fs' = fs ∧ place.location = start ∨ fs' = fs.move start place.location ∧ place.location ≠ start ∧
        ∀ goal there, place = .found goal there → there.isDirectory = node.isDirectory) := by
  rw [rename] at h
  cases hs : fs.locate cwd old with
  | error cause => rw [hs] at h; cases h
  | ok source =>
  cases hd : fs.locate cwd new with
  | error cause => rw [hs, hd] at h; cases h
  | ok place =>
  rw [hs, hd] at h
  simp only [bind, Except.bind, throw, throwThe, MonadExceptOf.throw, pure, Except.pure] at h
  split at h
  · cases h
  cases source with
  | vacant dir name slashed => cases h
  | found start node =>
  refine ⟨start, node, place, rfl, rfl, ?_⟩
  dsimp only at h
  split at h
  · cases h
  cases place with
  | vacant dir name slashed =>
      dsimp only at h
      split at h
      · cases h
      · cases h
        refine .inr ⟨rfl, ?_, nofun⟩
        rintro rfl
        have hn := (locate_leads hd).vacancy.2.2
        rw [show dir ++ [name] = Place.location (.vacant dir name slashed) from rfl,
          (locate_leads hs).at?_found] at hn
        cases hn
  | found goal there =>
      dsimp only at h
      split at h
      · next he => cases h; exact .inl ⟨rfl, he⟩
      · next he =>
        split at h
        · cases h
        split at h
        · cases h
        refine .inr ?_
        cases hn : node.isDirectory <;> cases ht : there.isDirectory <;> simp only [hn, ht] at h
        · cases h
          exact ⟨rfl, he, fun _ _ hp => by cases hp; exact ht⟩
        · cases h
        · cases h
        · split at h
          · cases h
          · cases h
            exact ⟨rfl, he, fun _ _ hp => by cases hp; exact ht⟩

theorem target_name {l : List String} {s : String} (hp : stretches old.text.toList = l ++ [s]) (hs : IsStep s) :
    (target old).2 = .name := by
  have ht : (target old).1 = l ++ [s] := by rw [target_fst, hp]
  rw [target] at ht ⊢
  simp only at ht ⊢
  rw [ht]
  simp [hs.2.1, hs.2.2]

/-- A free name is taken. -/
theorem rename_vacant {slashed : Bool} (hs : fs.locate cwd old = .ok (.found start node))
    (hd : fs.locate cwd new = .ok (.vacant parent name slashed)) (hold : (target old).2 = .name)
    (hnew : (target new).2 = .name)
    (hopen : node.isDirectory = false → endsInSlash old = false ∧ endsInSlash new = false)
    (hin : ¬ start <+: parent) : fs.rename cwd old new = .ok (fs.move start (parent ++ [name])) := by
  have hpre : start.isPrefixOf parent = false := Bool.eq_false_iff.2 (mt List.isPrefixOf_iff_prefix.1 hin)
  have hslash : (!node.isDirectory && (endsInSlash old || endsInSlash new)) = false := by
    cases hn : node.isDirectory with
    | true => rfl
    | false =>
        rw [(hopen hn).1, (hopen hn).2]
        rfl
  simp [rename, hs, hd, hold, hnew, hpre, hslash, bind, Except.bind, pure, Except.pure]

/-- What is no directory goes to the place of something else, unless that is a directory. -/
theorem rename_onto {there : FileNode} (hs : fs.locate cwd old = .ok (.found start node))
    (hd : fs.locate cwd new = .ok (.found goal there)) (hold : (target old).2 = .name) (hnew : (target new).2 = .name)
    (hopen : endsInSlash old = false ∧ endsInSlash new = false) (hnode : node.isDirectory = false)
    (hin : ¬ start <+: goal) (hout : ¬ goal <+: start) : fs.rename cwd old new =
      if there.isDirectory then .error .isDirectory else .ok (fs.move start goal) := by
  have hpre : start.isPrefixOf goal = false := Bool.eq_false_iff.2 (mt List.isPrefixOf_iff_prefix.1 hin)
  have hpre' : goal.isPrefixOf start = false := Bool.eq_false_iff.2 (mt List.isPrefixOf_iff_prefix.1 hout)
  have hne : goal ≠ start := by
    rintro rfl
    exact hin List.prefix_rfl
  cases hthere : there.isDirectory <;>
    simp [rename, hs, hd, hold, hnew, hopen.1, hopen.2, hnode, hpre, hpre', hne, hthere, bind, Except.bind, pure,
      Except.pure, throw, throwThe, MonadExceptOf.throw]

theorem rename_directory {slashed : Bool} (hs : fs.locate cwd old = .ok (.found start .directory))
    (hd : fs.locate cwd new = .ok (.vacant parent name slashed)) (hold : (target old).2 = .name)
    (hnew : (target new).2 = .name) (hin : ¬ start <+: parent) :
    fs.rename cwd old new = .ok (fs.move start (parent ++ [name])) := rename_vacant hs hd hold hnew nofun hin

theorem WellFormed.at?_move_file (h : fs.WellFormed) (hs : fs.at? start = some (.file bytes)) (hg : goal ≠ [])
    (hne : goal ≠ start) (hgoal : fs.at? goal ≠ some .directory) (x : Location) :
    (fs.move start goal).at? x = if x = goal then some (.file bytes) else if x = start then none
      else fs.at? x := by
  have hsn : start ≠ [] := by
    rintro rfl
    cases hs
  have hsd : fs.at? start ≠ some .directory := by simp [hs]
  by_cases hx : x = goal
  · subst hx
    have hm : (fs.move start x).at? (x ++ []) = fs.at? (start ++ []) := at?_move_new hsn hg []
    rw [if_pos rfl, ← hs]
    simpa using hm
  rw [if_neg hx]
  by_cases hgx : goal <+: x
  · obtain ⟨l, rfl⟩ := hgx
    have hl : l ≠ [] := by
      rintro rfl
      simp at hx
    have hbelow : fs.at? (start ++ l) = none :=
      h.at?_below hsd (List.prefix_append _ _) (by simp [hl])
    rw [at?_move_new hsn hg, hbelow, h.at?_below hgoal (List.prefix_append _ _) hx]
    split <;> rfl
  by_cases hsx : start <+: x
  · by_cases hxs : x = start
    · subst hxs
      rw [if_pos rfl, at?_move_old List.prefix_rfl hsn hgx]
    · have hxn : x ≠ [] := by
        rintro rfl
        exact hsn (List.prefix_nil.1 hsx)
      rw [if_neg hxs, at?_move_old hsx hxn hgx, h.at?_below hsd hsx hxs]
  · rw [if_neg (by rintro rfl; exact hsx List.prefix_rfl), at?_move_apart hsx hgx]

/-- What is moved goes into a directory that does not go with it. -/
theorem WellFormed.move (h : fs.WellFormed) (hs : start ≠ []) (hd : fs.at? parent = some .directory)
    (hname : IsName name) (hin : ¬ start <+: parent) : (fs.move start (parent ++ [name])).WellFormed := by
  have hgoal : parent ++ [name] ≠ [] := by simp
  have hback : ∀ {x n}, ¬ parent ++ [name] <+: x ++ [n] → ((fs.move start (parent ++ [name])).at? (x ++ [n])).isSome →
      ¬ start <+: x ++ [n] ∧ (fs.at? (x ++ [n])).isSome := by
    intro x n hx hsome
    have hold : ¬ start <+: x ++ [n] := by
      intro hc
      rw [at?_move_old hc (by simp) hx] at hsome
      cases hsome
    exact ⟨hold, by rwa [at?_move_apart hold hx] at hsome⟩
  constructor
  · intro x n hsome
    by_cases hx : parent ++ [name] <+: x ++ [n]
    · rcases List.prefix_concat_iff.1 hx with he | ⟨r, rfl⟩
      · obtain ⟨rfl, -⟩ := List.append_inj' he rfl
        rw [at?_move_apart hin not_append_isPrefix, hd]
      · rw [List.append_assoc, at?_move_new hs hgoal, ← List.append_assoc] at hsome
        rw [at?_move_new hs hgoal]
        exact h.parent hsome
    · obtain ⟨hold, hsome⟩ := hback hx hsome
      rw [at?_move_apart (fun hc => hold (hc.trans (List.prefix_append _ _)))
        fun hc => hx (hc.trans (List.prefix_append _ _))]
      exact h.parent hsome
  · intro x n hsome
    by_cases hx : parent ++ [name] <+: x ++ [n]
    · rcases List.prefix_concat_iff.1 hx with he | ⟨r, rfl⟩
      · obtain rfl : name = n := by simpa using (List.append_inj' he rfl).2
        exact hname
      · rw [List.append_assoc, at?_move_new hs hgoal, ← List.append_assoc] at hsome
        exact h.isName hsome
    · exact h.isName (hback hx hsome).2

theorem WellFormed.move_file (h : fs.WellFormed) (hs : fs.at? start = some (.file bytes))
    (hd : fs.at? parent = some .directory) (hname : IsName name) : (fs.move start (parent ++ [name])).WellFormed := by
  refine h.move ?_ hd hname ?_
  · rintro rfl
    cases hs
  · rintro ⟨r, rfl⟩
    by_cases hr : r = []
    · rw [hr, List.append_nil] at hd
      cases hs.symm.trans hd
    · cases hs.symm.trans (h.above hr (by rw [hd]; rfl))

theorem Confined.rename (h : Confined base root fs₀ fs) (hold : Below base old) (hnew : Below base new)
    (hfile : ∀ loc node, fs.locate cwd old = .ok (.found loc node) → node.IsFile)
    (hr : fs.rename cwd old new = .ok fs') : Confined base root fs₀ fs' := by
  obtain ⟨start, node, place, hs, hd, ⟨rfl, -⟩ | ⟨rfl, hne, hkind⟩⟩ := rename_ok hr
  · exact h
  obtain ⟨bytes, rfl⟩ := hfile _ _ hs
  have hat := (locate_leads hs).at?_found
  have hrootStart : root <+: start := h.prefix_locate hold hs
  have hrootGoal := h.prefix_locate hnew hd
  have hplace : ∀ goal there, place = .found goal there → there.IsFile := by
    rintro goal there rfl
    have hthere := (locate_leads hd).at?_found
    cases there with
    | file old => exact ⟨old, rfl⟩
    | link target => exact absurd hthere (h.linkFree _ _ hrootGoal)
    | directory => exact absurd (hkind _ _ rfl) nofun
  obtain ⟨hgoal, dir, name, heq, hdir, hname⟩ :=
    h.wellFormed.parent_of_place (locate_leads hd) (fun _ => not_slash_of_mem_stretches) hplace
  rw [heq] at hne hgoal hrootGoal ⊢
  have hmoved := h.wellFormed.at?_move_file hat (by simp) hne hgoal
  refine ⟨h.wellFormed.move_file hat hdir hname, h.leads.mono ?_, ?_, ?_⟩
  · intro x there hx hf
    rw [hmoved, if_neg ?_, if_neg ?_, hx]
    · rintro rfl
      rw [hat] at hx
      cases hx
      exact hf ⟨bytes, rfl⟩
    · rintro rfl
      cases there with
      | file old => exact hf ⟨old, rfl⟩
      | link target => exact h.linkFree _ _ hrootGoal hx
      | directory => exact hgoal hx
  · intro x target hx
    rw [hmoved]
    split
    · nofun
    · split
      · nofun
      · exact h.linkFree x target hx
  · intro x hx
    rw [hmoved, if_neg (by rintro rfl; exact hx hrootGoal), if_neg (by rintro rfl; exact hx hrootStart),
      h.within x hx]

end SiteTree.FileSystem
