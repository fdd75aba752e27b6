import SiteTree.Proofs.Path.Descent

/-!
What is put behind a path that may be empty: the file name of a child, its stem and extension, and the child
without its extension.
-/

namespace SiteTree.Path

open Text

variable {p : Path} {s name : String} {stem ext : List Char}

theorem parts_single (hslash : '/' ∉ name.toList) (hdot : name ≠ ".") : (⟨name⟩ : Path).parts = ⟨.bare, [name.toList]⟩ := by
  have hchars : name.toList ≠ ['.'] := fun he => hdot (String.toList_inj.1 he)
  unfold parts
  split
  · next r hr => exact absurd (by simp [show name.toList = '/' :: r from hr]) hslash
  · next hr => exact absurd hr hchars
  · next r hr => exact absurd (by simp [show name.toList = '.' :: '/' :: r from hr]) hslash
  · rw [split_of_not_mem hslash]

theorem fileChars?_single (hslash : '/' ∉ name.toList) (hne : name ≠ "") (hdot : name ≠ ".") :
    fileChars? ⟨name⟩ = if name.toList = ['.', '.'] then none else some name.toList := by
  have hchars : name.toList ≠ ['.'] := fun he => hdot (String.toList_inj.1 he)
  have hfiller : isFiller name.toList = false := by simp [isFiller, hne, hchars]
  rw [fileChars?, parts_single hslash hdot]
  simp [splitBody?, hfiller]

theorem fileChars?_name (h : IsName name) : fileChars? ⟨name⟩ = some name.toList := by
  have hup : name.toList ≠ ['.', '.'] := fun he => h.2.2.1 (String.toList_inj.1 he)
  rw [fileChars?_single h.2.2.2 h.1 h.2.1, if_neg hup]

/-- Nothing comes between an empty path and what is put behind it. -/
theorem child_of_empty (hp : p.text = "") (s : String) : p.child s = ⟨s⟩ := by
  have htext : p.text.toList.getLast? = none := by simp [hp]
  rw [child, join, htext, ite_self]

theorem fileChars?_child (hs : IsName s) (p : Path) : (p.child s).fileChars? = some s.toList := by
  by_cases hp : p.text = ""
  · rw [child_of_empty hp, fileChars?_name hs]
  · exact fileChars_child hs hp

theorem fileChars?_child_up (p : Path) : (p.child "..").fileChars? = none := by
  by_cases hp : p.text = ""
  · rw [child_of_empty hp]
    rfl
  · rw [fileChars?, parts_stretch (by decide) hp, Parts.child, splitBody?_append_singleton]
    rfl

theorem fileName?_child (hs : IsName s) (p : Path) : (p.child s).fileName? = some s := by
  rw [fileName?, fileChars?_child hs, Option.map_some, String.ofList_toList]

theorem stemChars?_child (hs : IsName s) (p : Path) : (p.child s).stemChars? = some (cutName s.toList).1 := by
  rw [stemChars?, fileChars?_child hs]
  rfl

theorem extensionChars?_child (hs : IsName s) (p : Path) : (p.child s).extensionChars? = (cutName s.toList).2 := by
  rw [extensionChars?, fileChars?_child hs]
  rfl

/-- All that is put behind a path has the same text before it. -/
theorem exists_text_child (p : Path) : ∃ before : List Char, ∀ s : String, '/' ∉ s.toList →
    (p.child s).text.toList = before ++ s.toList := by
  by_cases hp : p.text = ""
  · exact ⟨[], fun s _ => by rw [child_of_empty hp, List.nil_append]⟩
  by_cases hlast : p.text.toList.getLast? = some '/'
  · exact ⟨p.text.toList, fun s hs => by rw [child, text_join (isAbsolute_of_not_mem hs) hp, if_pos hlast]⟩
  · refine ⟨p.text.toList ++ ['/'], fun s hs => ?_⟩
    rw [child, text_join (isAbsolute_of_not_mem hs) hp, if_neg hlast, List.append_assoc, List.singleton_append]

/-- A child is cut into its name and what every other stretch in its place has before it. -/
theorem exists_cut_child (hs : IsName s) (p : Path) : ∃ before, splitBody? (p.child s).parts.body = some (before, s.toList) ∧
    ∀ t : String, '/' ∉ t.toList → ofChars (Parts.chars ⟨(p.child s).parts.lead, before ++ [t.toList]⟩) = p.child t := by
  by_cases hp : p.text = ""
  · have hsingle : (p.child s).parts = ⟨.bare, [s.toList]⟩ := by rw [child_of_empty hp, parts_single hs.2.2.2 hs.2.1]
    rw [hsingle]
    refine ⟨[], ?_, fun t _ => ?_⟩
    · rw [← List.nil_append [s.toList], splitBody?_append_singleton, isFiller_name hs]
      rfl
    · rw [child_of_empty hp]
      exact congrArg Path.mk String.ofList_toList
  · rw [parts_child hs hp]
    refine ⟨p.parts.room, ?_, fun t ht => ?_⟩
    · rw [Parts.child, splitBody?_append_singleton, isFiller_name hs]
      rfl
    · have htext : Parts.chars ⟨p.parts.lead, p.parts.room ++ [t.toList]⟩ = (p.child t).text.toList := (text_stretch ht hp).symm
      show ofChars (Parts.chars ⟨p.parts.lead, p.parts.room ++ [t.toList]⟩) = p.child t
      rw [htext, ofChars, String.ofList_toList]

theorem setExtension_child (hs : IsName s) (hstem : '/' ∉ (cutName s.toList).1) (p : Path) :
    (p.child s).setExtension "" = p.child (String.ofList (cutName s.toList).1) := by
  obtain ⟨before, hcut, hput⟩ := exists_cut_child hs p
  have htext := hput (String.ofList (cutName s.toList).1) (by simpa using hstem)
  rw [String.toList_ofList] at htext
  simp [setExtension, hcut, stemChars?_child hs, htext]

theorem setExtension_child_up (p : Path) (ext : String) : (p.child "..").setExtension ext = p.child ".." := by
  have hnone : (p.child "..").stemChars? = none := by
    rw [stemChars?, fileChars?_child_up]
    rfl
  rw [setExtension, hnone]
  split
  · next h => cases h
  · rfl

end SiteTree.Path
