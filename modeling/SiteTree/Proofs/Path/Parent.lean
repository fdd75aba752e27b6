import SiteTree.Proofs.Path.Resolved

/-!
Absolute paths whose stretches may be dots: what goes from the end of such a path to its parent, and what comes behind
it with names of any kind.
-/

namespace SiteTree.Path

open Text

variable {p q : Path} {s : String} {l base names trail : List String} {a : List Char} {body before : List (List Char)}

/-- What the last name is cut from, up to the fillers behind it. -/
theorem solid_splitBody (h : splitBody? body = some (before, a)) :
    (∃ k, solid body = solid before ++ String.ofList a :: List.replicate k ".") ∧ String.ofList a ≠ "." ∧
      ∀ t ∈ before, t ∈ body := by
  induction body using List.reverseRecOn with
  | nil => cases h
  | append_singleton body t ih =>
      rw [splitBody?_append_singleton] at h
      split at h
      · next hf =>
        obtain ⟨⟨k, hk⟩, hdot, hmem⟩ := ih h
        refine ⟨?_, hdot, fun u hu => List.mem_append_left _ (hmem u hu)⟩
        rcases (show t = [] ∨ t = ['.'] by simpa [isFiller] using hf) with rfl | rfl
        · exact ⟨k, by simpa using hk⟩
        · exact ⟨k + 1, by rw [solid_append, hk, List.replicate_succ', List.append_assoc]; rfl⟩
      · next hf =>
        cases h
        simp only [isFiller, Bool.or_eq_true, List.isEmpty_iff, beq_iff_eq, not_or] at hf
        refine ⟨⟨0, by simp [solid, hf.1]⟩, fun he => hf.2 ?_, fun u hu => List.mem_append_left _ hu⟩
        rw [← String.toList_ofList (l := a), he]
        rfl

/-- The parent of an absolute path has the stretches before the last name, less the dots at its end. -/
theorem parent_of_absolute (ha : p.isAbsolute = true) (hq : p.parent? = some q) : q.isAbsolute = true ∧
    ∃ s m k, stretches p.text.toList = stretches q.text.toList ++ List.replicate m "." ++ s :: List.replicate k "." ∧
      s ≠ "." := by
  obtain ⟨r, hr⟩ : ∃ r, p.text.toList = '/' :: r := List.head?_eq_some_iff.1 (by simpa [isAbsolute] using ha)
  rw [parent?, parts_of_absolute hr] at hq
  cases hsplit : splitBody? (split '/' r) with
  | none => rw [hsplit] at hq; cases hq
  | some cut =>
      obtain ⟨before, a⟩ := cut
      rw [hsplit] at hq
      cases hq
      obtain ⟨⟨k, hk⟩, hdot, hmem⟩ := solid_splitBody hsplit
      obtain ⟨m, hm⟩ := solid_eq_trimBody before
      refine ⟨by rw [isAbsolute, toList_ofChars]; rfl, String.ofList a, m, k, ?_, hdot⟩
      have hchars : Parts.chars ⟨.root, trimBody before⟩ = '/' :: glue '/' (trimBody before) := rfl
      rw [toList_ofChars, hchars, stretches_slash,
        solid_glue fun t ht => not_mem_of_mem_split (hmem t (mem_of_mem_trimBody ht)), ← hm, ← hk, hr, stretches_slash]
      rfl

theorem ne_empty_of_absolute (ha : p.isAbsolute = true) : p.text ≠ "" := by
  intro he
  rw [isAbsolute, he] at ha
  cases ha

/-- Names that are put behind an absolute path go on from it, or from the root if one of them starts there. -/
theorem descend_stretches (ha : p.isAbsolute = true) (hl : stretches p.text.toList = base ++ names) (trail : List String) :
    (p.descend trail).isAbsolute = true ∧ ∃ base' names', stretches (p.descend trail).text.toList = base' ++ names' ∧
      (base' = base ∨ base' = []) ∧ ∀ s ∈ names', s ∈ names ++ spelled trail := by
  induction trail generalizing p base names with
  | nil => exact ⟨ha, base, names, hl, .inl rfl, fun s hs => List.mem_append_left _ hs⟩
  | cons t trail ih =>
      cases habs : isAbsolute ⟨t⟩ with
      | true =>
          have hchild : p.child t = ⟨t⟩ := by rw [Path.child, join, if_pos habs]
          obtain ⟨ha', base', names', hl', hbase, hmem⟩ := ih (show (p.child t).isAbsolute = true by rw [hchild, habs])
            (show stretches (p.child t).text.toList = [] ++ stretches t.toList by rw [hchild]; rfl)
          refine ⟨ha', base', names', hl', .inr (hbase.elim id id), fun s hs => ?_⟩
          rw [spelled_cons]
          exact List.mem_append_right _ (hmem s hs)
      | false =>
          have hstretches : stretches (p.child t).text.toList = base ++ (names ++ stretches t.toList) := by
            rw [← List.append_assoc, ← hl]
            exact stretches_join habs (ne_empty_of_absolute ha)
          have ha' : (p.child t).isAbsolute = true := by
            have hne : p.text.toList ≠ [] := by simpa using ne_empty_of_absolute ha
            rw [isAbsolute, Path.child, text_join habs (ne_empty_of_absolute ha)]
            split <;> rw [List.head?_append_of_ne_nil _ hne] <;> exact ha
          obtain ⟨ha'', base', names', hl', hbase, hmem⟩ := ih ha' hstretches
          refine ⟨ha'', base', names', hl', hbase, fun s hs => ?_⟩
          rw [spelled_cons, ← List.append_assoc]
          exact hmem s hs

end SiteTree.Path
