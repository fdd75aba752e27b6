import SiteTree.Proofs.FileSystem.Straight
import SiteTree.Proofs.FileSystem.Uncovered

/-!
Going down by names from a directory that a path of any form leads to, with no link below it: what is found there, which
levels can be made, and how a file comes there.
-/

namespace SiteTree.FileSystem

open SiteTree.Path

variable {fs fs' fs'' : FileSystem} {follow : Bool} {m n : Nat} {cwd cur loc x y : Location} {k l names rest : List String}
  {s : String} {node : FileNode} {p q source : Path} {bytes : ByteArray}

/-- All that is there stays as it is. -/
def Extends (fs fs' : FileSystem) : Prop := ∀ x node, fs.at? x = some node → fs'.at? x = some node

theorem Extends.trans (h : fs.Extends fs') (h' : fs'.Extends fs'') : fs.Extends fs'' := fun x node hx => h' x node (h x node hx)

theorem Extends.outgrows (h : fs.Extends fs') : fs.Outgrows fs' := fun x node hx _ => h x node hx

theorem Extends.isSome (h : fs.Extends fs') (hx : (fs.at? x).isSome) : (fs'.at? x).isSome := by
  obtain ⟨node, hnode⟩ := Option.isSome_iff_exists.1 hx
  rw [h x node hnode]
  rfl

/-- The levels that are made down to a place take nothing away. -/
theorem OpenTo.extension (ho : fs.OpenTo x) (hat : ∀ y, fs'.at? y = if y <+: x then some .directory else fs.at? y) :
    fs.Extends fs' := by
  intro y node hy
  rw [hat]
  split
  · next hpre => exact ((ho y hpre).resolve_left (by rw [hy]; exact nofun)).symm.trans hy
  · exact hy

/-- What is found stays found. -/
theorem Leads.extended (h : fs.Leads follow n cur l (.found loc node)) (he : fs.Extends fs') :
    fs'.Leads follow n cur l (.found loc node) := by
  generalize hp : Place.found loc node = place at h
  induction h with
  | stop h => cases hp; exact .stop (he _ _ h)
  | skip h hs _ ih => exact .skip (he _ _ h) hs (ih hp)
  | up h _ ih => exact .up (he _ _ h) (ih hp)
  | vacant | slashed => cases hp
  | stay h hs hn hf => cases hp; exact .stay (he _ _ h) hs (he _ _ hn) hf
  | jump h hs hn hf _ ih => exact .jump (he _ _ h) hs (he _ _ hn) hf (ih hp)
  | enter h hs hn hlink _ ih => exact .enter (he _ _ h) hs (he _ _ hn) hlink (ih hp)

theorem found_extended (h : fs.found cwd p = .ok (loc, node)) (he : fs.Extends fs') : fs'.found cwd p = .ok (loc, node) := by
  rw [found_eq_ok, resolve] at *
  split at h
  · cases h
  · next hp =>
    rw [if_neg hp]
    exact ((Leads.of_walk h).extended he).walk_eq

theorem at?_of_found (h : fs.found cwd p = .ok (loc, node)) : fs.at? loc = some node :=
  (leads_of_resolve (found_eq_ok.1 h)).at?_found

namespace LeadsTo

variable (h : fs.LeadsTo cwd p loc)

include h

variable (hn : ∀ s ∈ names, IsName s)

include hn

/-- What comes behind a path that leads to a directory goes on from there. -/
theorem walk_descend (hne : names ≠ []) (follow : Bool) : ∃ m,
    fs.resolveSteps follow (startOf cwd (p.descend names).text.toList) (stretches (p.descend names).text.toList) =
      fs.walk follow (m + 1) loc names := by
  obtain ⟨m, hm⟩ := h.2.walk_append follow hne
  rw [filter_stretches] at hm
  refine ⟨m, ?_⟩
  rw [resolveSteps, startOf, head?_descend h.1 hn, ← startOf, stretches_descend h.1 hn, hm]

theorem locate_descend (hne : names ≠ []) : ∃ m, fs.locate cwd (p.descend names) = fs.walk false (m + 1) loc names := by
  obtain ⟨m, hm⟩ := h.walk_descend hn hne false
  exact ⟨m, by rw [locate, isEmpty_eq_false (descend_ne_empty h.1 hn), if_neg Bool.false_ne_true, target_fst, hm]⟩

theorem resolve_descend (hne : names ≠ []) (follow : Bool) :
    ∃ m, fs.resolve cwd follow (p.descend names) = fs.walk follow (m + 1) loc names := by
  have hnil := descend_ne_empty h.1 hn
  obtain ⟨m, hm⟩ := h.walk_descend hn hne follow
  refine ⟨m, ?_⟩
  rw [resolve, isEmpty_eq_false hnil, if_neg Bool.false_ne_true, steps_of_isOpen (isOpen_descend h.1 hn hne) hnil, hm]

end LeadsTo

namespace LeadsTo

variable (h : fs.LeadsTo cwd p loc) (hs : IsName s)

include h hs

theorem makeDirectory_child (hnone : fs.at? (loc ++ [s]) = none) :
    fs.makeDirectory cwd (p.child s) = .ok (fs.put (loc ++ [s]) .directory) := by
  refine makeDirectory_eq_ok.2 ⟨loc, s, false, ?_, rfl⟩
  rw [h.locate_child hs, placeIn, hnone]

theorem write_child (hat : fs.at? (loc ++ [s]) = none ∨ ∃ old, fs.at? (loc ++ [s]) = some (.file old)) (bytes : ByteArray) :
    fs.write cwd (p.child s) bytes = .ok (fs.put (loc ++ [s]) (.file bytes)) := by
  have hlink : ∀ target, fs.at? (loc ++ [s]) ≠ some (.link target) := by
    intro target ht
    rcases hat with he | ⟨old, he⟩
    · cases ht.symm.trans he
    · cases ht.symm.trans he
  rw [write_open (isOpen_child hs h.1), h.resolve_child hs hlink, placeIn]
  rcases hat with he | ⟨old, he⟩
  · rw [he]
    rfl
  · rw [he]
    rfl

/-- A file is copied under a name that a directory does not have. -/
theorem copy_child (hw : fs.WellFormed) (hnone : fs.at? (loc ++ [s]) = none) (hsource : fs.found cwd source = .ok (x, .file bytes)) :
    ∃ fs', fs.copy cwd source (p.child s) = .ok fs' ∧ fs'.WellFormed ∧
      ∀ y, fs'.at? y = if y = loc ++ [s] then some (.file bytes) else fs.at? y := by
  have hput : ∀ (new : ByteArray) (y : Location),
      (fs.put (loc ++ [s]) (.file new)).at? y = if y = loc ++ [s] then some (.file new) else fs.at? y := by
    intro new y
    split
    · next hy => rw [hy, at?_put_self _ _ (by simp)]
    · next hy => exact hw.at?_put (by simp [hnone]) hy
  have hcleared : fs.write cwd (p.child s) .empty = .ok (fs.put (loc ++ [s]) (.file .empty)) := h.write_child hs (.inl hnone) _
  have hat : fs.at? x = some (.file bytes) := at?_of_found hsource
  have hread : (fs.put (loc ++ [s]) (.file .empty)).at? x = some (.file bytes) := by
    rw [hput, if_neg (by rintro rfl; cases hat.symm.trans hnone), hat]
  have hself : (fs.put (loc ++ [s]) (.file .empty)).at? (loc ++ [s]) = some (.file .empty) := by rw [hput, if_pos rfl]
  have hgrown : fs.Outgrows (fs.put (loc ++ [s]) (.file .empty)) := by
    intro y node hy _
    rw [hput, if_neg (by rintro rfl; cases hy.symm.trans hnone), hy]
  have hw₁ : (fs.put (loc ++ [s]) (.file .empty)).WellFormed := hw.put h.directory hs
  have hwritten := (h.mono hgrown).write_child hs (.inr ⟨_, hself⟩) bytes
  refine ⟨(fs.put (loc ++ [s]) (.file .empty)).put (loc ++ [s]) (.file bytes), ?_, hw₁.put (h.mono hgrown).directory hs,
    fun y => ?_⟩
  · rw [FileSystem.copy, hsource]
    simp only [bind, Except.bind, hcleared, hread]
    exact hwritten
  · by_cases hy : y = loc ++ [s]
    · rw [if_pos hy, hy, at?_put_self _ _ (by simp)]
    · rw [if_neg hy, hw₁.at?_put (by simp [hself]) hy, hput, if_neg hy]

end LeadsTo

/-- The walk goes down as far as there are directories. -/
theorem walk_down (hw : fs.WellFormed) (hat : fs.at? (loc ++ l) = some .directory) (hl : ∀ s ∈ l, IsStep s)
    (rest : List String) : fs.walk follow (m + 1) loc (l ++ rest) = fs.walk follow (m + 1) (loc ++ l) rest := by
  induction l generalizing loc with
  | nil => rw [List.append_nil]; rfl
  | cons s l ih =>
      have hs := hl s (by simp)
      have happ : loc ++ s :: l = loc ++ [s] ++ l := by simp
      have hd := hw.directory_above hat (List.prefix_append _ _)
      rw [happ] at hat ⊢
      have hd' := hw.directory_above hat (List.prefix_append _ _)
      rw [← ih hat fun t ht => hl t (List.mem_cons_of_mem _ ht), List.cons_append, walk_succ, walk_succ, walkWith]
      simp [hd, hd', hs.1, hs.2.1, hs.2.2]

/-- Below a directory, too, there is a last one on the way down. -/
theorem exists_last_below (hw : fs.WellFormed) (hd : fs.at? loc = some .directory) (hl : fs.at? (loc ++ l) ≠ some .directory) :
    ∃ k t rest, l = k ++ t :: rest ∧ fs.at? (loc ++ k) = some .directory ∧ fs.at? (loc ++ k ++ [t]) ≠ some .directory := by
  obtain ⟨y, t, rest, hy, hyd, ht⟩ := exists_last_directory hl
  rcases List.append_eq_append_iff.1 hy with ⟨k, rfl, hk⟩ | ⟨k, hk, hrest⟩
  · exact ⟨k, t, rest, hk, hyd, ht⟩
  · cases k with
    | nil =>
        rw [List.append_nil] at hk
        subst hk
        exact ⟨[], t, rest, by simpa using hrest.symm, by simpa using hyd, by simpa using ht⟩
    | cons u k =>
        rw [List.cons_append, List.cons.injEq] at hrest
        exact absurd (hw.directory_above hd (by rw [hk, hrest.1]; simp)) ht

section

variable (hw : fs.WellFormed) (h : fs.LeadsTo cwd p loc) (hn : ∀ s ∈ names, IsName s)

include hw h hn

/-- Below a directory the levels that are missing can be made, unless a file is in the way. -/
theorem makeLevels_down (ho : fs.OpenTo (loc ++ names)) (hlen : names.length < n) :
    ∃ fs', makeLevels cwd n (if names = [] then p.trimmed else p.descend names) fs = .ok fs' ∧ fs'.WellFormed ∧
      ∀ y, fs'.at? y = if y <+: loc ++ names then some .directory else fs.at? y := by
  induction n generalizing names with
  | zero => cases hlen
  | succ n ih =>
      by_cases hd : fs.at? (loc ++ names) = some .directory
      · have hthere : fs.LeadsTo cwd (if names = [] then p.trimmed else p.descend names) (loc ++ names) := by
          split
          · next hnil => rw [hnil, List.append_nil]; exact h.trimmed
          · exact h.descend hw hd
        refine ⟨fs, hthere.makeLevels_there n, hw, fun y => ?_⟩
        split
        · next hy => exact hw.directory_above hd hy
        · rfl
      have hnone := (ho _ List.prefix_rfl).resolve_right hd
      obtain ⟨l, s, rfl⟩ := (List.eq_nil_or_concat' names).resolve_left (by
        rintro rfl
        rw [List.append_nil] at hd
        exact hd h.directory)
      have hs : IsName s := hn s (by simp)
      have hl : ∀ t ∈ l, IsName t := fun t ht => hn t (List.mem_append_left _ ht)
      have he := isEmpty_eq_false (descend_ne_empty h.1 hn)
      rw [if_neg (by simp)]
      rw [← List.append_assoc] at ho hnone hd ⊢
      by_cases hx : fs.at? (loc ++ l) = some .directory
      · have hmake : fs.makeDirectory cwd (p.descend (l ++ [s])) = .ok (fs.put (loc ++ l ++ [s]) .directory) := by
          rw [descend_append]
          exact (h.descend hw hx).makeDirectory_child hs hnone
        refine ⟨_, ?_, hw.put_level hx hs hnone⟩
        rw [makeLevels_last he (by rw [hmake]; nofun), makeLevel_made hmake]
      · have hmissing : fs.makeDirectory cwd (p.descend (l ++ [s])) = .error .missing := by
          obtain ⟨k, t, rest, rfl, hk, ht⟩ := exists_last_below hw h.directory hx
          obtain ⟨m, hm⟩ := h.locate_descend hn (by simp)
          have hnone' : fs.at? (loc ++ k ++ [t]) = none := (ho _ (by simp)).resolve_right ht
          rw [makeDirectory, hm, List.append_assoc, walk_down hw hk fun u hu => (hl u (by simp [hu])).isStep, List.cons_append,
            walk_missing hk (hl t (by simp)).isStep (by simp) (fun he => hs.1 (List.mem_singleton.1 (he ▸ by simp))) hnone']
          rfl
        rw [List.length_append, List.length_singleton] at hlen
        obtain ⟨fs₁, hlevels, h₁, hat⟩ := ih hl (ho.above (List.prefix_append _ _)) (by omega)
        have hd₁ : fs₁.at? (loc ++ l) = some .directory := by rw [hat, if_pos List.prefix_rfl]
        have hgrown : fs.Outgrows fs₁ := ((ho.above (List.prefix_append _ _)).extension hat).outgrows
        have hnone₁ : fs₁.at? (loc ++ l ++ [s]) = none := by rw [hat, if_neg not_append_isPrefix, hnone]
        obtain ⟨h₂, hlast⟩ := h₁.put_level hd₁ hs hnone₁
        refine ⟨_, ?_, h₂, at?_levels hat hlast⟩
        rw [makeLevels_above he hmissing (parent?_descend h.1 hn), hlevels, descend_append]
        exact makeLevel_made (((h.mono hgrown).descend h₁ hd₁).makeDirectory_child hs hnone₁)

/-- A file in the way keeps them from being made. -/
theorem makeLevels_obstructed (hk : k <+: names) (hat : fs.at? (loc ++ k) = some (.file bytes)) :
    makeLevels cwd (n + 1) (p.descend names) fs = .error (if k = names then .taken else .notDirectory, fs) := by
  have hknil : k ≠ [] := by
    rintro rfl
    rw [List.append_nil, h.directory] at hat
    cases hat
  have hne : names ≠ [] := fun hc => hknil (List.prefix_nil.1 (hc ▸ hk))
  have hwalk : ∀ (follow : Bool) (m : Nat), fs.walk follow (m + 1) loc names =
      if k = names then .ok (.found (loc ++ k) (.file bytes)) else .error .notDirectory := by
    intro follow m
    split
    · next he =>
      subst he
      exact (hw.leads_down hat nofun).walk_eq
    · next hproper =>
      obtain ⟨rest, rfl⟩ := hk
      obtain ⟨k, t, rfl⟩ := (List.eq_nil_or_concat' k).resolve_left hknil
      rw [← List.append_assoc] at hat
      have hd : fs.at? (loc ++ k) = some .directory := hw.parent (by rw [hat]; rfl)
      rw [List.append_assoc, walk_down hw hd fun s hs => (hn s (by simp [hs])).isStep]
      have hrest : rest ≠ [] := fun hr => hproper (by rw [hr, List.append_nil])
      exact walk_blocked hd (hn t (by simp)).isStep (by simpa using hrest) hat
  have hmake : fs.makeDirectory cwd (p.descend names) = .error (if k = names then .taken else .notDirectory) := by
    obtain ⟨m, hm⟩ := h.locate_descend hn hne
    rw [makeDirectory, hm, hwalk]
    split
    · rfl
    · rfl
  have hnot : fs.isDirectory cwd (p.descend names) = false := by
    obtain ⟨m, hm⟩ := h.resolve_descend hn hne true
    rw [isDirectory, found, hm, hwalk]
    by_cases he : k = names
    · rw [if_pos he]
      rfl
    · rw [if_neg he]
      rfl
  have hlast : fs.makeDirectory cwd (p.descend names) ≠ .error .missing := by
    rw [hmake]
    split <;> simp
  rw [makeLevels_last (isEmpty_eq_false (descend_ne_empty h.1 hn)) hlast, makeLevel_refused hmake, if_neg (by simp [hnot])]

end

section

variable (hw : fs.WellFormed) (h : fs.LeadsTo cwd p loc) (hfree : fs.LinkFree loc) (hn : ∀ s ∈ names, IsName s)

include hw h hfree hn

theorem pathExists_descend (hne : names ≠ []) :
    fs.pathExists cwd (p.descend names) = (fs.at? (loc ++ names)).isSome := by
  obtain ⟨m, hm⟩ := h.resolve_descend hn hne true
  have hfound : ∀ {x node}, fs.found cwd (p.descend names) = .ok (x, node) ↔
      fs.walk true (m + 1) loc names = .ok (.found x node) := by
    intro x node
    rw [found_eq_ok, hm]
  cases hat : fs.at? (loc ++ names) with
  | some node =>
      have hlink : ∀ target, node ≠ .link target := fun target ht => hfree _ target (List.prefix_append _ _) (ht ▸ hat)
      rw [pathExists, hfound.2 (hw.leads_down hat hlink).walk_eq]
      rfl
  | none =>
      rw [pathExists]
      cases hf : fs.found cwd (p.descend names) with
      | error cause => rfl
      | ok there =>
          have hleads := Leads.of_walk (hfound.1 hf)
          have hloc : there.1 = loc ++ names :=
            hleads.location_names (fun y target hy _ => hfree y target hy) fun s hs => (hn s hs).isStep
          rw [← hloc, hleads.at?_found] at hat
          cases hat

end

end SiteTree.FileSystem
