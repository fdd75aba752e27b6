import SiteTree.Proofs.Path.Stretches

/-!
Absolute paths as lists of stretches, and what a child, a parent, a file name and a new file name
are on the lists.
-/

namespace SiteTree.Path

open Text

variable {p q : Path} {l : List String} {s : String} {a r : List Char} {body : List (List Char)}

/-- An absolute path without dots that stand for nothing, and its stretches. -/
structure Spells (p : Path) (l : List String) : Prop where
  absolute : ∃ r, p.text.toList = '/' :: r
  stretches : stretches p.text.toList = l
  noHere : "." ∉ l

/-- No slash at the end. -/
def IsOpen (p : Path) : Prop := p.text.toList.getLast? ≠ some '/'

theorem Spells.stretches_tail (h : p.Spells l) : p.text.toList = '/' :: r → Path.stretches r = l := by
  intro hr
  rw [← h.stretches, hr, stretches_slash]

theorem Spells.isName (h : p.Spells l) (hs : s ∈ l) (hup : s ≠ "..") : IsName s := by
  have hm : s ∈ Path.stretches p.text.toList := h.stretches ▸ hs
  exact ⟨ne_empty_of_mem_stretches hm, fun he => h.noHere (he ▸ hs), hup, not_slash_of_mem_stretches hm⟩

theorem Spells.isEmpty (h : p.Spells l) : p.isEmpty = false := by
  obtain ⟨r, hr⟩ := h.absolute
  rw [Path.isEmpty, Bool.eq_false_iff, ne_eq, String.isEmpty_iff, ← String.toList_inj, hr]
  simp

theorem Spells.resolve_eq (h : p.Spells l) (fs : FileSystem) (cwd : Location) (follow : Bool) :
    fs.resolve cwd follow p = fs.resolveSteps follow [] l ∨
      ¬ p.IsOpen ∧ fs.resolve cwd follow p = fs.resolveSteps follow [] (l ++ [""]) := by
  obtain ⟨r, hr⟩ := h.absolute
  have hne := h.isEmpty
  have hs : FileSystem.startOf cwd p.text.toList = [] := by simp [FileSystem.startOf, hr]
  have hsteps := steps_eq p.text.toList
  rw [h.stretches] at hsteps
  rw [FileSystem.resolve, hne, if_neg (by simp), hs, hsteps]
  split
  · next hl =>
    rcases hl with hl | hl
    · simp [hr] at hl
    · exact Or.inr ⟨not_not.2 hl, rfl⟩
  · exact Or.inl rfl

theorem Spells.resolve_open (h : p.Spells l) (ho : p.IsOpen) (fs : FileSystem) (cwd : Location)
    (follow : Bool) :
    fs.resolve cwd follow p = fs.resolveSteps follow [] l :=
  (h.resolve_eq fs cwd follow).resolve_right fun hc => hc.1 ho

theorem Spells.locate_eq (h : p.Spells l) (fs : FileSystem) (cwd : Location) :
    fs.locate cwd p = fs.resolveSteps false [] l := by
  obtain ⟨r, hr⟩ := h.absolute
  have hne := h.isEmpty
  have hs : FileSystem.startOf cwd p.text.toList = [] := by simp [FileSystem.startOf, hr]
  rw [FileSystem.locate, hne, if_neg (by simp), hs, target_fst, h.stretches]

theorem spells_of_append (hp : p.text.toList = a ++ '/' :: s.toList) (ha : a = [] ∨ ∃ r, a = '/' :: r)
    (hl : Path.stretches a = l) (hn : "." ∉ l) (hs : IsName s) : p.Spells (l ++ [s]) ∧ p.IsOpen := by
  obtain ⟨hne, hdot, -, hslash⟩ := hs
  refine ⟨⟨?_, ?_, ?_⟩, ?_⟩
  · rcases ha with rfl | ⟨r, rfl⟩
    · exact ⟨s.toList, hp⟩
    · exact ⟨r ++ '/' :: s.toList, hp⟩
  · rw [hp, stretches_append, hl, stretches_toList hne hslash]
  · simp [hn, Ne.symm hdot]
  · have hnil : s.toList ≠ [] := by simpa using hne
    have hlast : p.text.toList.getLast? = some (s.toList.getLast hnil) := by
      rw [hp, List.getLast?_append, List.getLast?_cons, List.getLast?_eq_some_getLast hnil]
      rfl
    rw [IsOpen, hlast]
    intro he
    exact hslash (Option.some.inj he ▸ List.getLast_mem hnil)

theorem Spells.join_text (h : p.Spells l) (hq : q.isAbsolute = false) : ∃ a,
    (p.join q).text.toList = a ++ '/' :: q.text.toList ∧ (a = [] ∨ ∃ r, a = '/' :: r) ∧
      Path.stretches a = l := by
  obtain ⟨r, hr⟩ := h.absolute
  rcases hlast : p.text.toList.getLast? with _ | c
  · simp [hr] at hlast
  by_cases hc : c = '/'
  · subst hc
    obtain ⟨u, hu⟩ := List.getLast?_eq_some_iff.1 hlast
    refine ⟨u, by simp [join, hq, hu], ?_, by rw [← h.stretches, hu, stretches_append]; simp⟩
    cases u with
    | nil => exact Or.inl rfl
    | cons d u =>
        rw [hr] at hu
        obtain ⟨rfl, -⟩ := List.cons_eq_cons.1 hu
        exact Or.inr ⟨u, rfl⟩
  · exact ⟨p.text.toList, by simp [join, hq, hlast], Or.inr ⟨r, hr⟩, h.stretches⟩

theorem isAbsolute_eq_false : p.isAbsolute = false ↔ p.text.toList.head? ≠ some '/' := by
  rw [isAbsolute, Bool.eq_false_iff, ne_eq, beq_iff_eq]

theorem Spells.child (h : p.Spells l) (hs : IsName s) : (p.child s).Spells (l ++ [s]) ∧
    (p.child s).IsOpen := by
  obtain ⟨a, ha, habs, hl⟩ := h.join_text
    (isAbsolute_eq_false.2 fun he => hs.2.2.2 (List.mem_of_head? he))
  exact spells_of_append ha habs hl h.noHere hs

theorem toList_ofChars (a : List Char) : (ofChars a).text.toList = a := String.toList_ofList

theorem parts_of_absolute (hr : p.text.toList = '/' :: r) : p.parts = ⟨.root, split '/' r⟩ := by
  simp [parts, hr]

theorem splitBody?_append_singleton (t : List Char) : splitBody? (body ++ [t]) =
    if isFiller t then splitBody? body else some (body, t) := by
  by_cases ht : isFiller t <;> simp [splitBody?, ht]

theorem trimBody_append_singleton (t : List Char) : trimBody (body ++ [t]) =
    if isFiller t then trimBody body else body ++ [t] := by
  by_cases ht : isFiller t <;> simp [trimBody, ht]

theorem isFiller_eq (hb : "." ∉ solid body) {t : List Char} (ht : t ∈ body) : isFiller t = t.isEmpty := by
  rw [isFiller, Bool.or_eq_left_iff_imp]
  intro hd
  obtain rfl : t = ['.'] := by simpa using hd
  exact absurd (List.mem_map.2 ⟨_, List.mem_filter.2 ⟨ht, rfl⟩, rfl⟩) hb

theorem splitBody?_solid (hb : "." ∉ solid body) (h : solid body = l ++ [s]) :
    ∃ before, splitBody? body = some (before, s.toList) ∧ solid before = l ∧ ∀ t ∈ before, t ∈ body := by
  induction body using List.reverseRecOn with
  | nil => simp [solid] at h
  | append_singleton body t ih =>
      have hf := isFiller_eq hb (t := t) (by simp)
      rw [splitBody?_append_singleton, hf]
      by_cases ht : t = []
      · subst ht
        simp only [solid_append, solid_nil, List.append_nil] at h hb
        obtain ⟨before, hsplit, hsolid, hmem⟩ := ih hb h
        exact ⟨before, by simpa using hsplit, hsolid, fun t ht => List.mem_append_left _ (hmem t ht)⟩
      · have hsingle : solid [t] = [String.ofList t] := by simp [solid, ht]
        rw [solid_append, hsingle] at h
        obtain ⟨hl, hs⟩ := List.append_inj' h rfl
        obtain rfl : String.ofList t = s := by simpa using hs
        exact ⟨body, by simp [ht], hl, fun t ht => List.mem_append_left _ ht⟩

theorem splitBody?_of_solid_nil (h : solid body = []) : splitBody? body = none := by
  induction body using List.reverseRecOn with
  | nil => rfl
  | append_singleton body t ih =>
      rw [solid_append, List.append_eq_nil_iff] at h
      have ht : t = [] := by simpa [solid] using h.2
      subst ht
      rw [splitBody?_append_singleton]
      exact ih h.1

theorem solid_trimBody (hb : "." ∉ solid body) : solid (trimBody body) = solid body := by
  induction body using List.reverseRecOn with
  | nil => rfl
  | append_singleton body t ih =>
      have hf := isFiller_eq hb (t := t) (by simp)
      rw [trimBody_append_singleton, hf]
      by_cases ht : t = []
      · subst ht
        simp only [solid_append, solid_nil, List.append_nil] at hb
        simpa using ih hb
      · simp [ht]

theorem mem_of_mem_trimBody {t : List Char} (h : t ∈ trimBody body) : t ∈ body := by
  rw [trimBody, List.mem_reverse] at h
  exact List.mem_reverse.1 (List.dropWhile_subset _ h)

theorem Spells.splitBody (h : p.Spells (l ++ [s])) : ∃ before, p.parts.lead = .root ∧
    splitBody? p.parts.body = some (before, s.toList) ∧ solid before = l ∧ ∀ t ∈ before, '/' ∉ t := by
  obtain ⟨r, hr⟩ := h.absolute
  have hsolid : solid (split '/' r) = l ++ [s] := h.stretches_tail hr
  obtain ⟨before, hsplit, hl, hmem⟩ := splitBody?_solid (hsolid ▸ h.noHere) hsolid
  rw [parts_of_absolute hr]
  exact ⟨before, rfl, hsplit, hl, fun t ht => not_mem_of_mem_split (hmem t ht)⟩

theorem Spells.parent (h : p.Spells (l ++ [s])) : ∃ q, p.parent? = some q ∧ q.Spells l := by
  obtain ⟨before, hlead, hsplit, hl, hmem⟩ := h.splitBody
  have hn : "." ∉ l := fun hc => h.noHere (List.mem_append_left _ hc)
  have hnb : "." ∉ solid before := hl ▸ hn
  have htext : Parts.chars ⟨p.parts.lead, trimBody before⟩ = '/' :: glue '/' (trimBody before) := by
    rw [hlead]
    rfl
  refine ⟨ofChars (Parts.chars ⟨p.parts.lead, trimBody before⟩), by simp only [parent?, hsplit], ?_⟩
  rw [htext]
  refine ⟨⟨_, toList_ofChars _⟩, ?_, hn⟩
  rw [toList_ofChars, stretches_slash, solid_glue fun t ht => hmem t (mem_of_mem_trimBody ht),
    solid_trimBody hnb, hl]

theorem Spells.fileChars (h : p.Spells (l ++ [s])) (hup : s ≠ "..") : p.fileChars? = some s.toList := by
  obtain ⟨before, -, hsplit, -⟩ := h.splitBody
  have hs : s.toList ≠ ['.', '.'] := fun he => hup (String.toList_inj.1 he)
  rw [fileChars?, hsplit]
  simp [hs]

theorem Spells.fileChars_up (h : p.Spells (l ++ [".."])) : p.fileChars? = none := by
  obtain ⟨before, -, hsplit, -⟩ := h.splitBody
  rw [fileChars?, hsplit]
  rfl

theorem Spells.splitBody_nil (h : p.Spells []) : splitBody? p.parts.body = none := by
  obtain ⟨r, hr⟩ := h.absolute
  rw [parts_of_absolute hr]
  exact splitBody?_of_solid_nil (h.stretches_tail hr)

theorem Spells.fileChars_nil (h : p.Spells []) : p.fileChars? = none := by
  rw [fileChars?, h.splitBody_nil]

theorem Spells.withFileName (h : p.Spells (l ++ [s])) (hup : s ≠ "..") {name : String} (hn : IsName name) :
    (p.withFileName name).Spells (l ++ [name]) ∧ (p.withFileName name).IsOpen := by
  obtain ⟨q, hq, hs⟩ := h.parent
  rw [Path.withFileName, h.fileChars hup, hq]
  exact hs.child hn

end SiteTree.Path
