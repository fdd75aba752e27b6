import SiteTree.Proofs.FileSystem.Region
import SiteTree.Proofs.Path.Descent

/-!
Where a path leads if its dots and double dots are resolved as they are written, and when names that
are put behind a path lead below it, whatever they are.
-/

namespace SiteTree.Path

open FileSystem Text

variable {cwd loc d : Location} {p q dest : Path} {s : String} {l below steps trail : List String}

/-- The location that a path names from a working directory. Links play no part in it. -/
def resolved (cwd : Location) (p : Path) : Location :=
  settle (startOf cwd p.text.toList) (stretches p.text.toList)

/-- Strictly below a directory. -/
def LiesBelow (cwd : Location) (dir p : Path) : Prop :=
  dir.resolved cwd <+: p.resolved cwd ∧ p.resolved cwd ≠ dir.resolved cwd

instance (cwd : Location) (dir p : Path) : Decidable (LiesBelow cwd dir p) := instDecidableAnd

theorem resolved_of_absolute (h : p.isAbsolute = true) (cwd : Location) :
    p.resolved cwd = settle [] (stretches p.text.toList) := by
  rw [resolved, startOf, if_pos (by simpa [isAbsolute] using h)]

theorem resolved_of_relative (h : p.isAbsolute = false) (cwd : Location) :
    p.resolved cwd = settle cwd (stretches p.text.toList) := by
  rw [resolved, startOf, if_neg (isAbsolute_eq_false.1 h)]

/-- The second path starts from where the first leads. -/
theorem resolved_join (cwd : Location) (p q : Path) : (p.join q).resolved cwd = q.resolved (p.resolved cwd) := by
  by_cases hq : q.isAbsolute = true
  · rw [join, if_pos hq, resolved_of_absolute hq, resolved_of_absolute hq]
  replace hq : q.isAbsolute = false := by simpa using hq
  by_cases hp : p.text = ""
  · have hjoin : p.join q = q := by simp [join, hq, hp]
    have hstart : p.resolved cwd = cwd := by simp [resolved, hp, startOf, settle]
    rw [hjoin, hstart]
  have hne : p.text.toList ≠ [] := by simpa using hp
  have htext := text_join hq hp
  have hhead : (p.join q).text.toList.head? = p.text.toList.head? := by
    rw [htext]
    split <;> rw [List.head?_append_of_ne_nil _ hne]
  rw [resolved_of_relative hq, resolved, stretches_join hq hp, settle_append, resolved, startOf, startOf, hhead]

/-- The location that names lead to when they are put behind a path one after another. -/
theorem resolved_descend (cwd : Location) (p : Path) (trail : List String) :
    (p.descend trail).resolved cwd = trail.foldl (fun loc s => resolved loc ⟨s⟩) (p.resolved cwd) := by
  induction trail generalizing p with
  | nil => rfl
  | cons s trail ih =>
      rw [List.foldl_cons, ← resolved_join]
      exact ih (p.child s)

/-- The stretches of names that need not be names of one component. -/
def spelled (trail : List String) : List String := trail.flatMap fun s => stretches s.toList

theorem spelled_cons (s : String) (trail : List String) :
    spelled (s :: trail) = stretches s.toList ++ spelled trail := List.flatMap_cons

theorem foldl_resolved (h : ∀ s ∈ trail, isAbsolute ⟨s⟩ = false) (loc : Location) :
    trail.foldl (fun loc s => resolved loc ⟨s⟩) loc = settle loc (spelled trail) := by
  induction trail generalizing loc with
  | nil => rfl
  | cons s trail ih =>
      rw [List.foldl_cons, ih fun t ht => h t (List.mem_cons_of_mem s ht), resolved_of_relative (h s (by simp)),
        spelled_cons, settle_append]

/-- The names below the start that stretches lead to, if they never lead above it on the way. -/
def within? : List String → List String → Option (List String)
  | below, [] => some below
  | below, s :: rest =>
    if s = "" ∨ s = "." then within? below rest
    else if s = ".." then if below = [] then none else within? below.dropLast rest
    else within? (below ++ [s]) rest

/-- Names that stay below any path that they are put behind: none of them starts at the root, and
the double dots in them undo no more than the names before them have done. -/
def Confining (trail : List String) : Prop :=
  (∀ s ∈ trail, isAbsolute ⟨s⟩ = false) ∧ ∃ l, within? [] (spelled trail) = some l ∧ l ≠ []

instance (trail : List String) : Decidable (Confining trail) :=
  match h : within? [] (spelled trail) with
  | none => isFalse fun hc => by
      obtain ⟨-, l, hl, -⟩ := hc
      cases h.symm.trans hl
  | some l => decidable_of_iff ((∀ s ∈ trail, isAbsolute ⟨s⟩ = false) ∧ l ≠ []) <| by
      rw [Confining, h]
      simp

theorem settle_within (h : within? below steps = some l) (loc : Location) :
    settle (loc ++ below) steps = loc ++ l := by
  induction steps generalizing below with
  | nil =>
      cases h
      rfl
  | cons s steps ih =>
      rw [within?] at h
      rw [settle]
      split at h
      · next hs => rw [if_pos hs, ih h]
      next hs =>
      rw [if_neg hs]
      split at h
      · next hup =>
        rw [if_pos hup]
        split at h
        · cases h
        · next hne => rw [List.dropLast_append_of_ne_nil hne, ih h]
      · next hup => rw [if_neg hup, List.append_assoc, ih h]

/-- Stretches that are not the last name of a directory do not lead into it from outside. -/
theorem settle_outside (hs : s ∉ steps) (h : ¬ d ++ [s] <+: loc) : ¬ d ++ [s] <+: settle loc steps := by
  induction steps generalizing loc with
  | nil => exact h
  | cons t steps ih =>
      have hrest : s ∉ steps := fun hmem => hs (List.mem_cons_of_mem t hmem)
      rw [settle]
      split
      · exact ih hrest h
      split
      · exact ih hrest fun hpre => h (hpre.trans (List.dropLast_prefix loc))
      · refine ih hrest fun hpre => ?_
        rcases List.prefix_concat_iff.1 hpre with he | hpre
        · obtain ⟨-, ht⟩ := List.append_inj' he rfl
          exact hs (List.head_eq_of_cons_eq ht ▸ List.mem_cons_self)
        · exact h hpre

/-- Stretches that lead above the start do not come back into it without its name. -/
theorem settle_above (hs : s ∉ steps) (h : within? below steps = none) :
    ¬ d ++ [s] <+: settle (d ++ [s] ++ below) steps := by
  induction steps generalizing below with
  | nil => cases h
  | cons t steps ih =>
      have hrest : s ∉ steps := fun hmem => hs (List.mem_cons_of_mem t hmem)
      rw [within?] at h
      rw [settle]
      split at h
      · next ht =>
        rw [if_pos ht]
        exact ih hrest h
      next ht =>
      rw [if_neg ht]
      split at h
      · next hup =>
        rw [if_pos hup]
        split at h
        · next hnil =>
          subst hnil
          rw [List.append_nil, List.dropLast_concat]
          exact settle_outside hrest not_append_isPrefix
        · next hne =>
          rw [List.dropLast_append_of_ne_nil hne]
          exact ih hrest h
      · next hup =>
        rw [if_neg hup, List.append_assoc]
        exact ih hrest h

/-- A name that starts at the root leaves the directory, and what follows does not lead back. -/
theorem foldl_resolved_outside (hs : s ∉ spelled trail)
    (h : ¬ d ++ [s] <+: loc ∨ ∃ t ∈ trail, isAbsolute ⟨t⟩ = true) :
    ¬ d ++ [s] <+: trail.foldl (fun loc t => resolved loc ⟨t⟩) loc := by
  induction trail generalizing loc with
  | nil => exact h.resolve_right nofun
  | cons t trail ih =>
      rw [spelled_cons, List.mem_append, not_or] at hs
      obtain ⟨ht, htrail⟩ := hs
      rw [List.foldl_cons]
      refine ih htrail ?_
      cases habs : isAbsolute ⟨t⟩ with
      | true =>
          left
          rw [resolved_of_absolute habs]
          exact settle_outside ht (by simp)
      | false =>
          rw [resolved_of_relative habs]
          rcases h with h | ⟨u, hu, hua⟩
          · exact .inl (settle_outside ht h)
          · right
            rcases List.mem_cons.1 hu with rfl | hu
            · rw [habs] at hua
              cases hua
            · exact ⟨u, hu, hua⟩

theorem Confining.liesBelow (h : Confining trail) (cwd : Location) (dest : Path) :
    LiesBelow cwd dest (dest.descend trail) := by
  obtain ⟨hrel, l, hl, hne⟩ := h
  have hend : (dest.descend trail).resolved cwd = dest.resolved cwd ++ l := by
    rw [resolved_descend, foldl_resolved hrel]
    simpa using settle_within hl (dest.resolved cwd)
  exact ⟨⟨l, hend.symm⟩, by simpa [hend] using hne⟩

/-- Names that do not hold the last name of the directory lead below it only if they stay below it
on the way. -/
theorem confining_of_liesBelow (hd : dest.resolved cwd = d ++ [s]) (hs : s ∉ spelled trail)
    (h : LiesBelow cwd dest (dest.descend trail)) : Confining trail := by
  obtain ⟨hpre, hne⟩ := h
  rw [resolved_descend, hd] at hpre hne
  have hrel : ∀ t ∈ trail, isAbsolute ⟨t⟩ = false := by
    intro t ht
    rw [Bool.eq_false_iff]
    exact fun habs => foldl_resolved_outside hs (.inr ⟨t, ht, habs⟩) hpre
  rw [foldl_resolved hrel] at hpre hne
  refine ⟨hrel, ?_⟩
  cases hw : within? [] (spelled trail) with
  | none =>
      have hout := settle_above (d := d) hs hw
      rw [List.append_nil] at hout
      exact absurd hpre hout
  | some l =>
      refine ⟨l, rfl, ?_⟩
      rintro rfl
      have hback := settle_within hw (d ++ [s])
      rw [List.append_nil] at hback
      exact hne hback

theorem spelled_names (h : ∀ s ∈ trail, IsName s) : spelled trail = trail := by
  induction trail with
  | nil => rfl
  | cons s trail ih =>
      obtain ⟨hne, -, -, hslash⟩ := h s (by simp)
      rw [spelled_cons, stretches_toList hne hslash, ih fun t ht => h t (List.mem_cons_of_mem s ht)]
      rfl

theorem within_names (h : ∀ s ∈ l, IsName s) (below : List String) : within? below l = some (below ++ l) := by
  induction l generalizing below with
  | nil => rw [within?, List.append_nil]
  | cons s l ih =>
      obtain ⟨hne, hhere, hup, -⟩ := h s (by simp)
      rw [within?, if_neg (not_or.2 ⟨hne, hhere⟩), if_neg hup, ih fun t ht => h t (List.mem_cons_of_mem s ht),
        List.append_assoc]
      rfl

theorem confining_names (h : ∀ s ∈ trail, IsName s) (hne : trail ≠ []) : Confining trail := by
  refine ⟨fun s hs => isAbsolute_name (h s hs), trail, ?_, hne⟩
  rw [spelled_names h, within_names h]
  rfl

theorem resolved_descend_names (h : ∀ s ∈ trail, IsName s) (cwd : Location) (p : Path) :
    (p.descend trail).resolved cwd = p.resolved cwd ++ trail := by
  rw [resolved_descend, foldl_resolved fun s hs => isAbsolute_name (h s hs), spelled_names h, settle_names h]

end SiteTree.Path
