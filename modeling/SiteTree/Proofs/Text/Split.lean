import Mathlib.Data.List.TakeDrop
import Mathlib.Data.List.TakeWhile
import SiteTree.Text.Split

/-!
Laws of cutting: no stretch holds the separator, and cutting takes apart what gluing puts together.
-/

namespace SiteTree.Text

variable {sep : Char} {a b s t : List Char} {l : List (List Char)}

theorem split_of_not_mem (h : sep ∉ s) : split sep s = [s] := by
  induction s with
  | nil => rfl
  | cons c r ih =>
      rw [List.mem_cons, not_or] at h
      rw [split, if_neg (Ne.symm h.1), ih h.2]

theorem split_append (sep : Char) (a b : List Char) :
    split sep (a ++ sep :: b) = split sep a ++ split sep b := by
  induction a with
  | nil => simp [split]
  | cons c r ih =>
      by_cases hc : c = sep
      · simp [split, hc, ih]
      · cases hs : split sep r with
        | nil => exact absurd hs (split_ne_nil sep r)
        | cons s t => simp [split, hc, ih, hs]

theorem not_mem_of_mem_split (h : t ∈ split sep s) : sep ∉ t := by
  induction s generalizing t with
  | nil => simp_all [split]
  | cons c r ih =>
      rw [split] at h
      split at h
      · rcases List.mem_cons.1 h with rfl | h
        · simp
        · exact ih h
      · next hc =>
        split at h
        · next hs => exact absurd hs (split_ne_nil sep r)
        · next u v hs =>
          rcases List.mem_cons.1 h with rfl | h
          · exact List.not_mem_cons_of_ne_of_not_mem (Ne.symm hc) (ih (by simp [hs]))
          · exact ih (by simp [hs, h])

theorem split_glue (hne : l ≠ []) (h : ∀ t ∈ l, sep ∉ t) : split sep (glue sep l) = l := by
  induction l with
  | nil => exact absurd rfl hne
  | cons s l ih =>
      cases l with
      | nil => exact split_of_not_mem (h s (by simp))
      | cons t l =>
          rw [glue_cons sep s (by simp), split_append, split_of_not_mem (h s (by simp)),
            ih (by simp) fun u hu => h u (List.mem_cons_of_mem _ hu)]
          rfl

theorem splitFirst?_eq_some : splitFirst? sep s = some (a, b) ↔ s = a ++ sep :: b ∧ sep ∉ a := by
  rw [splitFirst?, List.span_eq_takeWhile_dropWhile]
  constructor
  · intro h
    cases hd : s.dropWhile (· ≠ sep) with
    | nil => rw [hd] at h; cases h
    | cons c r =>
        rw [hd] at h
        cases h
        have hc : c = sep := by
          have hhead := List.head?_dropWhile_not (fun c => decide (c ≠ sep)) s
          rw [hd] at hhead
          simpa using hhead
        subst hc
        refine ⟨?_, fun hmem => ?_⟩
        · rw [← hd, List.takeWhile_append_dropWhile]
        · simpa using List.mem_takeWhile_imp hmem
  · rintro ⟨rfl, ha⟩
    have hall : ∀ c ∈ a, decide (c ≠ sep) = true := by
      intro c hc
      have hne : c ≠ sep := by rintro rfl; exact ha hc
      simpa using hne
    rw [List.dropWhile_append_of_pos hall, List.takeWhile_append_of_pos hall]
    simp

theorem splitLast?_of_not_mem (h : sep ∉ s) : splitLast? sep s = none := by
  have hd : s.reverse.dropWhile (fun c => decide (c ≠ sep)) = [] := by
    rw [List.dropWhile_eq_nil_iff]
    intro c hc
    have hne : c ≠ sep := by rintro rfl; exact h (List.mem_reverse.1 hc)
    simpa using hne
  rw [splitLast?, List.span_eq_takeWhile_dropWhile, hd]

theorem splitLast?_append (a : List Char) (h : sep ∉ b) : splitLast? sep (a ++ sep :: b) = some (a, b) := by
  have hb : ∀ c ∈ b.reverse, decide (c ≠ sep) = true := by
    intro c hc
    have hne : c ≠ sep := by rintro rfl; exact h (List.mem_reverse.1 hc)
    simpa using hne
  have hr : (a ++ sep :: b).reverse = b.reverse ++ sep :: a.reverse := by simp
  rw [splitLast?, List.span_eq_takeWhile_dropWhile, hr, List.takeWhile_append_of_pos hb,
    List.dropWhile_append_of_pos hb]
  simp

theorem exists_splitLast (h : sep ∈ s) : ∃ a b, s = a ++ sep :: b ∧ sep ∉ b := by
  obtain ⟨u, v, hr, hu⟩ := List.eq_append_cons_of_mem (List.mem_reverse.2 h)
  refine ⟨v.reverse, u.reverse, ?_, by simpa using hu⟩
  have hs := congrArg List.reverse hr
  simpa using hs

theorem head?_glue_cons (hs : s ≠ []) (l : List (List Char)) : (glue sep (s :: l)).head? = s.head? := by
  cases l with
  | nil => rfl
  | cons t l =>
      rw [glue_cons sep s (by simp), List.head?_append, List.head?_eq_some_head hs]
      rfl

theorem glue_eq_intercalate (sep : Char) (l : List (List Char)) : glue sep l = [sep].intercalate l := by
  induction l with
  | nil => rfl
  | cons s l ih =>
      cases l with
      | nil => simp [glue]
      | cons t l => rw [glue_cons sep s (by simp), ih]; simp

end SiteTree.Text
