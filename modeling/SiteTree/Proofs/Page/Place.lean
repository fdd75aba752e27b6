import SiteTree.Page
import SiteTree.Proofs.FileSystem.Rename

/-!
Where a page goes: beside its target if it is named for the index, and otherwise into a directory
named for the target without its extension.
-/

namespace SiteTree

open Text

def IsDots (s : List Char) : Prop := ∀ c ∈ s, c = '.'

instance (s : List Char) : Decidable (IsDots s) := List.decidableBAll (· = '.') s

/-- One component of a path that is not made only of dots, and neither is what is before its last
dot, if there is anything. -/
def IsPlain (s : String) : Prop :=
  '/' ∉ s.toList ∧ ¬ IsDots s.toList ∧ ¬ IsDots (Path.cutName s.toList).1

instance (s : String) : Decidable (IsPlain s) := inferInstanceAs (Decidable (_ ∧ ¬ _ ∧ ¬ _))

theorem isName_of_not_isDots {s : List Char} (hslash : '/' ∉ s) (h : ¬ IsDots s) :
    IsName (String.ofList s) := by
  have hne : ∀ t : String, IsDots t.toList → String.ofList s ≠ t := by
    rintro t ht rfl
    exact h (by simpa using ht)
  exact ⟨hne "" (by decide), hne "." (by decide), hne ".." (by decide), by simpa using hslash⟩

theorem IsPlain.isName {s : String} (h : IsPlain s) : IsName s := by
  simpa using isName_of_not_isDots h.1 h.2.1

namespace Path

variable {p : Path} {l : List String} {s : String} {a name stem ext : List Char}

theorem cutName_eq_some (h : cutName name = (stem, some ext)) : name = stem ++ '.' :: ext := by
  by_cases hd : '.' ∈ name
  · obtain ⟨u, v, rfl, hv⟩ := exists_splitLast hd
    rw [cutName, splitLast?_append u hv] at h
    cases u with
    | nil => cases h
    | cons c u => cases h; rfl
  · rw [cutName, splitLast?_of_not_mem hd] at h
    cases h

theorem cutName_eq_none (h : cutName name = (stem, none)) : stem = name := by
  rw [cutName] at h
  split at h <;> cases h <;> rfl

theorem cutName_append (hs : stem ≠ []) (he : '.' ∉ ext) : cutName (stem ++ '.' :: ext) = (stem, some ext) := by
  rw [cutName, splitLast?_append stem he]
  cases stem with
  | nil => exact absurd rfl hs
  | cons c stem => rfl

theorem cutName_append_dot (hs : stem ≠ []) : cutName (stem ++ ['.']) = (stem, some []) :=
  cutName_append hs List.not_mem_nil

theorem cutName_of_not_mem (h : '.' ∉ name.tail) : cutName name = (name, none) := by
  by_cases hd : '.' ∈ name
  · cases name with
    | nil => cases hd
    | cons c r =>
        obtain rfl : '.' = c := (List.mem_cons.1 hd).resolve_right h
        have hsplit : splitLast? '.' ('.' :: r) = some ([], r) := splitLast?_append [] h
        rw [cutName, hsplit]
  · rw [cutName, splitLast?_of_not_mem hd]

theorem cutName_some (h : cutName name = (stem, some ext)) : stem ≠ [] ∧ '.' ∉ ext := by
  have hd : '.' ∈ name := by simp [cutName_eq_some h]
  obtain ⟨u, v, rfl, hv⟩ := exists_splitLast hd
  rw [cutName, splitLast?_append u hv] at h
  cases u with
  | nil => cases h
  | cons c u => cases h; exact ⟨List.cons_ne_nil c u, hv⟩

theorem cutName_none (h : (cutName name).2 = none) : '.' ∉ name.tail := by
  intro hd
  obtain ⟨u, v, huv, hv⟩ := exists_splitLast hd
  cases name with
  | nil => cases hd
  | cons c r =>
      rw [List.tail_cons] at huv
      rw [huv, show c :: (u ++ '.' :: v) = (c :: u) ++ '.' :: v from rfl, cutName_append (by simp) hv] at h
      cases h

theorem mem_of_mem_stem {c : Char} (h : c ∈ (cutName name).1) : c ∈ name := by
  rcases hc : cutName name with ⟨stem, ext⟩
  cases ext with
  | none => exact cutName_eq_none hc ▸ (by simpa [hc] using h)
  | some ext => rw [cutName_eq_some hc]; exact List.mem_append_left _ (by simpa [hc] using h)

theorem Spells.exists_text (h : p.Spells (l ++ [s])) (ho : p.IsOpen) : ∃ a,
    p.text.toList = a ++ '/' :: s.toList ∧ (a = [] ∨ ∃ r, a = '/' :: r) ∧ Path.stretches a = l := by
  obtain ⟨r, hr⟩ := h.absolute
  have hslash : '/' ∈ p.text.toList := by simp [hr]
  obtain ⟨u, v, huv, hv⟩ := exists_splitLast hslash
  have hne : v ≠ [] := by
    rintro rfl
    exact ho (by simp [huv])
  have hl := h.stretches
  rw [huv, stretches_append, stretches_of_not_mem hne hv] at hl
  obtain ⟨hu, hs⟩ := List.append_inj' hl rfl
  obtain rfl : String.ofList v = s := by simpa using hs
  refine ⟨u, by simpa using huv, ?_, hu⟩
  cases u with
  | nil => exact .inl rfl
  | cons c u =>
      rw [hr] at huv
      obtain ⟨rfl, -⟩ := List.cons_eq_cons.1 huv
      exact .inr ⟨u, rfl⟩

theorem Spells.setExtension_nil (h : p.Spells (l ++ [s])) (hup : s ≠ "..") (hslash : '/' ∉ s.toList)
    (hs : ¬ IsDots (cutName s.toList).1) :
    (p.setExtension "").Spells (l ++ [String.ofList (cutName s.toList).1]) := by
  obtain ⟨before, hlead, hsplit, hl, hmem⟩ := h.splitBody
  have hname := isName_of_not_isDots (fun hc => hslash (mem_of_mem_stem hc)) hs
  have hstem : p.stemChars? = some (cutName s.toList).1 := by rw [stemChars?, h.fileChars hup]; rfl
  have htext : (p.setExtension "").text.toList = '/' :: glue '/' (before ++ [(cutName s.toList).1]) := by
    rw [setExtension, hsplit, hstem]
    simp [toList_ofChars, Parts.chars, hlead, Lead.chars]
  have hsolid : solid [(cutName s.toList).1] = [String.ofList (cutName s.toList).1] := by
    simpa using solid_singleton hname.1
  refine ⟨⟨_, htext⟩, ?_, ?_⟩
  · rw [htext, stretches_slash, solid_glue ?_, solid_append, hl, hsolid]
    intro t ht
    rcases List.mem_append.1 ht with ht | ht
    · exact hmem t ht
    · exact List.mem_singleton.1 ht ▸ fun hc => hslash (mem_of_mem_stem hc)
  · intro hc
    rcases List.mem_append.1 hc with hc | hc
    · exact h.noHere (List.mem_append_left _ hc)
    · exact hname.2.1 (List.mem_singleton.1 hc).symm

theorem Spells.withExtension_nil (h : p.Spells (l ++ [s])) (ho : p.IsOpen) (hs : IsPlain s) :
    (p.withExtension "").Spells (l ++ [String.ofList (cutName s.toList).1]) := by
  have hext : p.extensionChars? = (cutName s.toList).2 := by
    rw [extensionChars?, h.fileChars hs.isName.2.2.1]
    rfl
  rcases hcut : cutName s.toList with ⟨stem, ext⟩
  rw [hcut] at hext
  cases ext with
  | none =>
      rw [withExtension, hext]
      simpa [hcut] using h.setExtension_nil hs.isName.2.2.1 hs.1 hs.2.2
  | some old =>
      obtain ⟨a, ha, habs, hl⟩ := h.exists_text ho
      have hdots : ¬ IsDots stem := by simpa [hcut] using hs.2.2
      have hne : stem ≠ [] := by
        rintro rfl
        exact hdots nofun
      have hslash : '/' ∉ stem ++ ['.'] := by
        have hn := hs.1
        rw [cutName_eq_some hcut] at hn
        simp at hn ⊢
        exact hn.1
      have hmore : ¬ IsDots (stem ++ ['.']) := fun hd => hdots fun c hc => hd c (List.mem_append_left _ hc)
      have hname := isName_of_not_isDots hslash hmore
      have htake : p.text.toList.take (p.text.length - old.length) = a ++ '/' :: (stem ++ ['.']) := by
        have happ : p.text.toList = (a ++ '/' :: (stem ++ ['.'])) ++ old := by simp [ha, cutName_eq_some hcut]
        rw [← String.length_toList, happ, List.length_append, Nat.add_sub_cancel, List.take_left]
      have hq := spells_of_append (p := ofChars (a ++ '/' :: (stem ++ ['.'])))
        (by rw [toList_ofChars, String.toList_ofList]) habs hl
        (fun hc => h.noHere (List.mem_append_left _ hc)) hname
      have hset :=
        hq.1.setExtension_nil hname.2.2.1 hname.2.2.2 (by simpa [cutName_append_dot hne] using hdots)
      rw [withExtension, hext]
      simpa [htake, cutName_append_dot hne] using hset

end Path

namespace Page

open SiteTree.Path

variable {p : Path} {l : List String} {s : String}

theorem placeOf_spells (h : p.Spells (l ++ [s])) (ho : p.IsOpen) (hs : IsPlain s) :
    (placeOf p).IsOpen ∧ (placeOf p).Spells (l ++ if p.stem? = some "index" then ["index.html"]
      else [String.ofList (cutName s.toList).1, "index.html"]) := by
  have hindex : IsName "index.html" := by decide
  rw [placeOf]
  split
  · obtain ⟨hspells, hopen⟩ := h.withFileName hs.isName.2.2.1 hindex
    exact ⟨hopen, hspells⟩
  · obtain ⟨hspells, hopen⟩ := (h.withExtension_nil ho hs).child hindex
    rw [List.append_assoc] at hspells
    exact ⟨hopen, hspells⟩

end Page

end SiteTree
