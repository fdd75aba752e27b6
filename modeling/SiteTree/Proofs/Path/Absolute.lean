import SiteTree.Proofs.Path.Spells

/-!
Components of absolute paths, the spelling of a location, and what making a path absolute gives.
-/

namespace SiteTree.Path

open Text

variable {p q : Path} {l m : List String} {s : String} {a r : List Char} {body : List (List Char)}
  {cwd loc : Location}

def componentOf (s : String) : Component := if s = ".." then .up else .name s

theorem componentOf_injective : Function.Injective componentOf := by
  intro s t h
  unfold componentOf at h
  split at h <;> split at h <;> simp_all

theorem component_ofList (t : List Char) : component t = componentOf (String.ofList t) := by
  by_cases ht : t = ['.', '.']
  · subst ht; rfl
  · have hs : String.ofList t ≠ ".." := fun he => ht (by simpa using congrArg String.toList he)
    rw [component, componentOf, if_neg ht, if_neg hs]

theorem bodyComponents_eq (hb : "." ∉ solid body) : bodyComponents body = (solid body).map componentOf := by
  have hf : body.filter (!isFiller ·) = body.filter (!·.isEmpty) :=
    List.filter_congr fun t ht => by rw [isFiller_eq hb ht]
  rw [bodyComponents, hf, solid, List.map_map]
  exact List.map_congr_left fun t _ => component_ofList t

theorem Spells.components (h : p.Spells l) : p.components = .root :: l.map componentOf := by
  obtain ⟨r, hr⟩ := h.absolute
  have hsolid : solid (split '/' r) = l := h.stretches_tail hr
  rw [Path.components, parts_of_absolute hr, bodyComponents_eq (hsolid ▸ h.noHere), hsolid]
  rfl

theorem map_componentOf_isPrefix : m.map componentOf <+: l.map componentOf ↔ m <+: l := by
  constructor
  · rintro ⟨t, ht⟩
    obtain ⟨u, v, rfl, hu, -⟩ := List.map_eq_append_iff.1 ht.symm
    exact ⟨v, by rw [List.map_injective_iff.2 componentOf_injective hu]⟩
  · rintro ⟨t, rfl⟩
    exact ⟨t.map componentOf, by simp⟩

theorem Spells.startsWith_iff (hp : p.Spells l) (hq : q.Spells m) : p.startsWith q = true ↔ m <+: l := by
  rw [startsWith, hp.components, hq.components, List.isPrefixOf_iff_prefix, List.cons_prefix_cons,
    map_componentOf_isPrefix]
  simp

theorem Spells.alike_iff (hp : p.Spells l) (hq : q.Spells m) : p.alike q = true ↔ l = m := by
  rw [Path.alike, beq_iff_eq, hp.components, hq.components, List.cons_inj_right,
    (List.map_injective_iff.2 componentOf_injective).eq_iff]

theorem Spells.alike (hp : p.Spells l) (hq : q.Spells l) : p.alike q = true := (hp.alike_iff hq).2 rfl

theorem up_mem_components (p : Path) : .up ∈ p.components ↔ ".." ∈ stretches p.text.toList := by
  have hbody : ∀ body : List (List Char), .up ∈ bodyComponents body ↔ ".." ∈ solid body := by
    intro body
    simp only [bodyComponents, solid, List.mem_map, List.mem_filter]
    constructor
    · rintro ⟨t, ⟨ht, -⟩, hc⟩
      have hup : t = ['.', '.'] := by
        by_contra hne
        simp [component, hne] at hc
      exact ⟨t, ⟨ht, by simp [hup]⟩, by rw [hup]⟩
    · rintro ⟨t, ⟨ht, -⟩, hc⟩
      have hup : t = ['.', '.'] := by simpa using congrArg String.toList hc
      exact ⟨t, ⟨ht, by simp [hup, isFiller]⟩, by simp [hup, component]⟩
  have hlead : ∀ x : Lead, .up ∉ x.components := by
    intro x
    cases x <;> simp [Lead.components]
  rw [components, List.mem_append, or_iff_right (hlead _), hbody]
  unfold parts
  split
  · next r hr => rw [hr, stretches_slash]; rfl
  · next hr => simp [hr, stretches, solid, split]
  · next r hr => simp [hr, stretches, solid, split]
  · rfl

end SiteTree.Path

namespace SiteTree.FileSystem

open SiteTree.Path Text

variable {p q : Path} {cwd loc : Location} {s : String}

theorem not_here_of_isName (h : ∀ s ∈ loc, IsName s) : "." ∉ loc := fun hc => (h _ hc).2.1 rfl

theorem not_up_of_isName (h : ∀ s ∈ loc, IsName s) : ".." ∉ loc := fun hc => (h _ hc).2.2.1 rfl

theorem solid_map_toList (h : ∀ s ∈ loc, IsName s) : solid (loc.map String.toList) = loc := by
  have hf : (loc.map String.toList).filter (!·.isEmpty) = loc.map String.toList := by
    rw [List.filter_eq_self]
    intro t ht
    obtain ⟨s, hs, rfl⟩ := List.mem_map.1 ht
    simpa using (h s hs).1
  rw [solid, hf, List.map_map]
  exact List.map_id'' (fun s => String.ofList_toList) loc

theorem toList_pathOf (loc : Location) : (pathOf loc).text.toList = '/' ::
    glue '/' (loc.map String.toList) := by
  rw [pathOf, String.toList_append, String.toList_intercalate, glue_eq_intercalate]
  rfl

theorem spells_pathOf (h : ∀ s ∈ loc, IsName s) : (pathOf loc).Spells loc := by
  refine ⟨⟨_, toList_pathOf loc⟩, ?_, not_here_of_isName h⟩
  have hn : ∀ t ∈ loc.map String.toList, '/' ∉ t := by
    intro t ht
    obtain ⟨s, hs, rfl⟩ := List.mem_map.1 ht
    exact (h s hs).2.2.2
  rw [toList_pathOf, stretches_slash, solid_glue hn, solid_map_toList h]

/-- The names that stay when a path is made absolute. -/
def kept (s : List Char) : List (List Char) := (split '/' s).filter fun n => !n.isEmpty && n != ['.']

/-- Gives a text the slash at the end that another text has. -/
def closeAs (s : List Char) (t : String) : String :=
  if s.getLast? = some '/' && t.toList.getLast? ≠ some '/' then t ++ "/" else t

theorem solid_kept (s : List Char) : solid (kept s) = (stretches s).filter (· ≠ ".") := by
  rw [solid, kept, stretches, solid, List.filter_filter, List.filter_map, List.filter_filter]
  congr 1
  refine List.filter_congr fun t _ => ?_
  by_cases ht : t = ['.']
  · subst ht; rfl
  · have hs : String.ofList t ≠ "." := fun he => ht (by simpa using congrArg String.toList he)
    simp [ht, hs]

theorem not_slash_of_mem_kept {s t : List Char} (h : t ∈ kept s) : '/' ∉ t :=
  not_mem_of_mem_split (List.mem_filter.1 h).1

theorem stretches_glue_kept (s : List Char) :
    stretches (glue '/' (kept s)) = (stretches s).filter (· ≠ ".") := by
  rw [solid_glue fun t ht => not_slash_of_mem_kept ht, solid_kept]

theorem stretches_closeAs (s : List Char) (t : String) :
    stretches (closeAs s t).toList = stretches t.toList := by
  rw [closeAs]
  split
  · rw [String.toList_append]
    exact (stretches_append t.toList []).trans (by simp)
  · rfl

theorem closeAs_absolute {s r : List Char} {t : String} (h : t.toList = '/' :: r) :
    ∃ r, (closeAs s t).toList = '/' :: r := by
  rw [closeAs]
  split
  · exact ⟨r ++ ['/'], by rw [String.toList_append, h]; rfl⟩
  · exact ⟨r, h⟩

theorem absolute_eq (cwd : Location) (p : Path) : absolute cwd p =
    match p.text.toList with
    | [] => .error .emptyPath
    | '/' :: '/' :: c :: _ => .ok ⟨closeAs p.text.toList
        ((if c = '/' then "/" else "//") ++ String.ofList (glue '/' (kept p.text.toList)))⟩
    | ['/', '/'] => .ok ⟨"//"⟩
    | '/' :: _ => .ok ⟨closeAs p.text.toList ("/" ++ String.ofList (glue '/' (kept p.text.toList)))⟩
    | _ => .ok ⟨closeAs p.text.toList (if (kept p.text.toList).isEmpty then pathOf cwd
        else (pathOf cwd).join ⟨String.ofList (glue '/' (kept p.text.toList))⟩).text⟩ := rfl

/-- What an absolute path spells: the names of the path, after those of the working directory if
it starts nowhere else. -/
def absoluteNames (cwd : Location) (p : Path) : List String :=
  (if p.isAbsolute then [] else cwd) ++ (stretches p.text.toList).filter (· ≠ ".")

theorem spells_closeAs {a r : List Char} {t : String} {l : List String} (ht : t.toList = '/' :: r)
    (hl : stretches r = l) (hn : "." ∉ l) : (⟨closeAs a t⟩ : Path).Spells l :=
  ⟨closeAs_absolute ht, by rw [stretches_closeAs, ht, stretches_slash, hl], hn⟩

theorem absoluteNames_rooted {r : List Char} (hr : p.text.toList = '/' :: r) :
    absoluteNames cwd p = (stretches p.text.toList).filter (· ≠ ".") := by
  simp [absoluteNames, isAbsolute, hr]

theorem isAbsolute_glue_kept {s : List Char} (h : kept s ≠ []) :
    (⟨String.ofList (glue '/' (kept s))⟩ : Path).isAbsolute = false := by
  obtain ⟨t, ts, hk⟩ := List.exists_cons_of_ne_nil h
  have ht : t ∈ kept s := by simp [hk]
  have hne : t ≠ [] := by
    rintro rfl
    simpa using (List.mem_filter.1 ht).2
  rw [hk, isAbsolute_eq_false, String.toList_ofList, head?_glue_cons hne]
  exact fun hc => not_slash_of_mem_kept ht (List.mem_of_head? hc)

theorem absoluteNames_relative (hna : p.isAbsolute = false) :
    absoluteNames cwd p = cwd ++ (stretches p.text.toList).filter (· ≠ ".") := by
  simp [absoluteNames, hna]

/-- The names of a path that does not start at the root come after those of the working directory. -/
theorem join_kept_spells (hcwd : ∀ s ∈ cwd, IsName s) (hna : p.isAbsolute = false) (h : kept p.text.toList ≠ []) :
    (⟨closeAs p.text.toList ((pathOf cwd).join ⟨String.ofList (glue '/' (kept p.text.toList))⟩).text⟩ : Path).Spells
      (absoluteNames cwd p) := by
  have hcwdSpells := spells_pathOf hcwd
  have hrel : absoluteNames cwd p = _ := absoluteNames_relative hna
  have hnames : "." ∉ absoluteNames cwd p := by
    rw [hrel]
    exact fun hc => (List.mem_append.1 hc).elim (not_here_of_isName hcwd) (by simp)
  obtain ⟨a, ha, hcase, hl⟩ := hcwdSpells.join_text (isAbsolute_glue_kept h)
  rw [String.toList_ofList] at ha
  have hstr : stretches ((pathOf cwd).join ⟨String.ofList (glue '/' (kept p.text.toList))⟩).text.toList =
      absoluteNames cwd p := by
    rw [ha, stretches_append, hl, stretches_glue_kept, hrel]
  obtain ⟨r, hr⟩ : ∃ r, ((pathOf cwd).join ⟨String.ofList (glue '/' (kept p.text.toList))⟩).text.toList =
      '/' :: r := by
    rcases hcase with rfl | ⟨r, rfl⟩
    · exact ⟨_, ha⟩
    · exact ⟨_, ha⟩
  exact spells_closeAs hr (by rw [← hstr, hr, stretches_slash]) hnames

theorem absolute_spells (hcwd : ∀ s ∈ cwd, IsName s) (h : absolute cwd p = .ok q) :
    q.Spells (absoluteNames cwd p) := by
  have hn : "." ∉ (stretches p.text.toList).filter (· ≠ ".") := by simp
  have hglue := stretches_glue_kept p.text.toList
  rw [absolute_eq] at h
  split at h
  · cases h
  · next c r hr =>
    cases h
    rw [absoluteNames_rooted hr]
    by_cases hc : c = '/'
    · refine spells_closeAs (r := glue '/' (kept p.text.toList)) ?_ hglue hn
      simp [hc]
    · refine spells_closeAs (r := '/' :: glue '/' (kept p.text.toList)) ?_ (by rw [stretches_slash, hglue]) hn
      simp [hc]
  · next hr =>
    cases h
    rw [absoluteNames_rooted hr, hr]
    exact ⟨⟨['/'], rfl⟩, rfl, by simp [stretches, split, solid]⟩
  · next r _ _ hr =>
    cases h
    rw [absoluteNames_rooted hr]
    refine spells_closeAs (r := glue '/' (kept p.text.toList)) ?_ hglue hn
    simp
  · next hnil _ _ hslash =>
    cases h
    have hna : p.isAbsolute = false := by
      rw [isAbsolute_eq_false]
      intro he
      obtain ⟨r, hr⟩ := List.head?_eq_some_iff.1 he
      exact hslash r hr
    split
    · next he =>
      have hk : kept p.text.toList = [] := by simpa using he
      have hnone : (stretches p.text.toList).filter (· ≠ ".") = [] := by rw [← hglue, hk]; rfl
      have hcwdSpells := spells_pathOf hcwd
      rw [absoluteNames_relative hna, hnone, List.append_nil]
      exact spells_closeAs (toList_pathOf cwd) (hcwdSpells.stretches_tail (toList_pathOf cwd)) hcwdSpells.noHere
    · next he => exact join_kept_spells hcwd hna (by simpa using he)

end SiteTree.FileSystem
