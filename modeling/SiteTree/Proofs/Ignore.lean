import Mathlib.Data.List.Basic
import Mathlib.Data.List.TakeWhile
import SiteTree.Proofs.Build.Eligible
import SiteTree.Proofs.Glob.Literal
import SiteTree.Proofs.Path.Child

/-!
Ignore filters as unions. A list of patterns makes a filter if each of them does for itself, and the filter hides what
one of them hides, so that neither their order nor their number matters and none undoes another. Of a pattern only what
is left of it without the blanks around it and the slashes at its end counts.
-/

namespace SiteTree.Text

variable {p : Char → Bool} {lead s t after : List Char}

theorem dropEnd_append_of_all (h : ∀ c ∈ t, p c = true) : dropEnd p (s ++ t) = dropEnd p s := by
  rw [dropEnd, List.reverse_append, List.dropWhile_append_of_pos (by simpa using h), dropEnd]

theorem dropEnd_of_last (h : ∀ c, s.getLast? = some c → p c = false) : dropEnd p s = s := by
  rcases List.eq_nil_or_concat' s with rfl | ⟨r, c, rfl⟩
  · rfl
  · have hc : p c = false := h c (by simp)
    simp [dropEnd, hc]

/-- Blanks around a text do not show once it is trimmed. -/
theorem trim_surrounded (hlead : ∀ c ∈ lead, isBlank c = true) (hafter : ∀ c ∈ after, isBlank c = true) :
    trim (lead ++ s ++ after) = trim s := by
  rw [trim, trim, trimEnd, trimEnd, trimStart, trimStart, List.append_assoc, List.dropWhile_append_of_pos hlead,
    List.dropWhile_append]
  split
  · next hs =>
    rw [List.isEmpty_iff.1 hs, List.dropWhile_eq_nil_iff.2 hafter]
  · exact dropEnd_append_of_all hafter

theorem trim_of_blank (h : ∀ c ∈ s, isBlank c = true) : trim s = [] := by
  have hs : trim (s ++ [] ++ []) = trim [] := trim_surrounded h nofun
  rwa [List.append_nil, List.append_nil] at hs

/-- A text that does not end in a blank is trimmed at its start only. -/
theorem trim_of_last (h : ∀ c, s.getLast? = some c → isBlank c = false) : trim s = trimStart s := by
  refine dropEnd_of_last fun c hc => h c ?_
  have hs : s = s.takeWhile isBlank ++ trimStart s := List.takeWhile_append_dropWhile.symm
  rw [hs, List.getLast?_append, hc]
  rfl

/-- What is no blank and stands behind a text is not trimmed at its start. -/
theorem trimStart_append (h : ∀ c ∈ t, isBlank c = false) : trimStart (s ++ t) = trimStart s ++ t := by
  rw [trimStart, List.dropWhile_append, trimStart]
  split
  · next hs =>
    rw [List.isEmpty_iff.1 hs, List.nil_append]
    cases t with
    | nil => rfl
    | cons c t => rw [List.dropWhile_cons_of_neg (by simp [h c])]
  · rfl

end SiteTree.Text

namespace SiteTree.Ignore

open SiteTree.Path Text

variable {a b filter : Ignore} {path : Path} {pattern name : String} {patterns ps qs : List String} {glob : Glob}

theorem append_assoc (a b c : Ignore) : (a.append b).append c = a.append (b.append c) := by
  simp [append]

theorem hides_append (a b : Ignore) (path : Path) : (a.append b).hides path = (a.hides path || b.hides path) := by
  rw [hides, hides, hides, append, List.any_append]
  cases path.fileName? with
  | none => simp
  | some name => simp [Bool.or_assoc, Bool.or_left_comm]

/-- What is left of the pattern is a glob. -/
def Reads (pattern : String) (glob : Glob) : Prop :=
  clean pattern ≠ [] ∧ Glob.read (String.ofList (clean pattern)) = .ok glob

/-- The glob accepts the path with its slashes or, if it is read from a pattern without any, its file name. -/
def Catches (pattern : String) (path : Path) : Prop :=
  ∃ glob, Reads pattern glob ∧ (glob.accepts (slashed path) = true ∨
    '/' ∉ clean pattern ∧ ∃ name, path.fileName? = some name ∧ glob.accepts name = true)

/-- Nothing is left of the pattern, or a glob. -/
def IsValid (pattern : String) : Prop := clean pattern = [] ∨ ∃ glob, Reads pattern glob

/-- The patterns make a filter. -/
def Builds (patterns : List String) : Prop := ∃ filter, ofPatterns patterns = .ok filter

/-- They make one that hides the path. -/
def Hides (patterns : List String) (path : Path) : Prop := ∃ filter, ofPatterns patterns = .ok filter ∧ filter.hides path = true

theorem ofPattern_of_clean_nil (h : clean pattern = []) : ofPattern pattern = .ok none := by
  rw [ofPattern, h]
  rfl

theorem ofPattern_of_reads (h : Reads pattern glob) :
    ofPattern pattern = .ok ⟨[glob], if (clean pattern).contains '/' then [] else [glob]⟩ := by
  obtain ⟨hne, hread⟩ := h
  have hempty : (clean pattern).isEmpty = false := by simpa using hne
  simp only [ofPattern, hempty, hread]
  rfl

theorem isValid_iff : IsValid pattern ↔ ∃ filter, ofPattern pattern = .ok filter := by
  constructor
  · rintro (h | ⟨glob, h⟩)
    · exact ⟨_, ofPattern_of_clean_nil h⟩
    · exact ⟨_, ofPattern_of_reads h⟩
  · rintro ⟨filter, h⟩
    by_cases hne : clean pattern = []
    · exact .inl hne
    · have hempty : (clean pattern).isEmpty = false := by simpa using hne
      simp only [ofPattern, hempty] at h
      cases hread : Glob.read (String.ofList (clean pattern)) with
      | error fault => rw [hread] at h; cases h
      | ok glob => exact .inr ⟨glob, hne, hread⟩

theorem hides_ofPattern (h : ofPattern pattern = .ok filter) : filter.hides path = true ↔ Catches pattern path := by
  rcases isValid_iff.2 ⟨_, h⟩ with hnil | ⟨glob, hreads⟩
  · rw [ofPattern_of_clean_nil hnil] at h
    cases h
    have hcatch : ¬ Catches pattern path := fun ⟨_, hreads, _⟩ => hreads.1 hnil
    rw [iff_false_right hcatch, hides]
    cases path.fileName? <;> simp [none]
  · rw [ofPattern_of_reads hreads] at h
    cases h
    have hunique : ∀ g, Reads pattern g → g = glob := by
      intro g hg
      have he := hg.2.symm.trans hreads.2
      cases he
      rfl
    have hcatch : Catches pattern path ↔ glob.accepts (slashed path) = true ∨
        '/' ∉ clean pattern ∧ ∃ name, path.fileName? = some name ∧ glob.accepts name = true := by
      constructor
      · rintro ⟨g, hg, h⟩
        rwa [hunique g hg] at h
      · exact fun h => ⟨glob, hreads, h⟩
    rw [hcatch, hides]
    cases path.fileName? with
    | none => simp
    | some name => by_cases hslash : '/' ∈ clean pattern <;> simp [hslash]

theorem ofPatterns_cons (pattern : String) (patterns : List String) : ofPatterns (pattern :: patterns) = (do
    let a ← ofPattern pattern
    let b ← ofPatterns patterns
    .ok (a.append b)) := rfl

/-- The patterns are read one after another; the first that cannot be read is told. -/
theorem ofPatterns_append (ps qs : List String) : ofPatterns (ps ++ qs) = (do
    let a ← ofPatterns ps
    let b ← ofPatterns qs
    .ok (a.append b)) := by
  induction ps with
  | nil =>
      rw [List.nil_append]
      cases ofPatterns qs <;> rfl
  | cons p ps ih =>
      rw [List.cons_append, ofPatterns_cons, ofPatterns_cons, ih]
      cases ofPattern p with
      | error e => rfl
      | ok a =>
          cases ofPatterns ps with
          | error e => rfl
          | ok b =>
              cases ofPatterns qs with
              | error e => rfl
              | ok c => exact congrArg Except.ok (append_assoc a b c).symm

theorem builds_iff : Builds patterns ↔ ∀ p ∈ patterns, IsValid p := by
  induction patterns with
  | nil => simp [Builds, ofPatterns]
  | cons p patterns ih =>
      rw [List.forall_mem_cons, ← ih, isValid_iff, Builds, Builds, ofPatterns_cons]
      cases ofPattern p with
      | error e => simp [bind, Except.bind]
      | ok a => cases ofPatterns patterns <;> simp [bind, Except.bind]

theorem hides_iff (h : ofPatterns patterns = .ok filter) :
    filter.hides path = true ↔ ∃ p ∈ patterns, Catches p path := by
  induction patterns generalizing filter with
  | nil =>
      cases h
      rw [hides]
      cases path.fileName? <;> simp [none]
  | cons p patterns ih =>
      rw [ofPatterns_cons] at h
      cases hp : ofPattern p with
      | error e => rw [hp] at h; cases h
      | ok a =>
          cases hrest : ofPatterns patterns with
          | error e => rw [hp, hrest] at h; cases h
          | ok b =>
              rw [hp, hrest] at h
              cases h
              rw [hides_append, Bool.or_eq_true, hides_ofPattern hp, ih hrest]
              simp

theorem hides_patterns_iff : Hides patterns path ↔ Builds patterns ∧ ∃ p ∈ patterns, Catches p path := by
  constructor
  · rintro ⟨filter, h, hhides⟩
    exact ⟨⟨filter, h⟩, (hides_iff h).1 hhides⟩
  · rintro ⟨⟨filter, h⟩, hcatch⟩
    exact ⟨filter, h, (hides_iff h).2 hcatch⟩

/-- A pattern of which nothing is left might as well not be there. -/
theorem ofPatterns_drop (h : clean pattern = []) (ps qs : List String) :
    ofPatterns (ps ++ pattern :: qs) = ofPatterns (ps ++ qs) := by
  rw [ofPatterns_append, ofPatterns_append, ofPatterns_cons, ofPattern_of_clean_nil h]
  cases ofPatterns qs <;> rfl

/-- Two patterns of which the same is left can stand for each other. -/
theorem ofPatterns_replace {other : String} (h : clean pattern = clean other) (ps qs : List String) :
    ofPatterns (ps ++ pattern :: qs) = ofPatterns (ps ++ other :: qs) := by
  rw [ofPatterns_append, ofPatterns_append, ofPatterns_cons, ofPatterns_cons, ofPattern, ofPattern, h]

def AllBlank (s : String) : Prop := ∀ c ∈ s.toList, isBlank c = true

def AllSlashes (s : String) : Prop := ∀ c ∈ s.toList, c = '/'

theorem clean_of_blank (h : AllBlank pattern) : clean pattern = [] := by
  rw [clean, trim_of_blank h]
  rfl

theorem not_isBlank_slash : isBlank '/' = false := by decide

/-- Slashes behind a pattern that does not end in a blank, and blanks around them and it, do not count. -/
theorem clean_surrounded {lead slashes after : String} (hend : ∀ c, pattern.toList.getLast? = some c → isBlank c = false)
    (hlead : AllBlank lead) (hslashes : AllSlashes slashes) (hafter : AllBlank after) :
    clean (lead ++ pattern ++ slashes ++ after) = clean pattern := by
  have hsolid : ∀ c ∈ slashes.toList, isBlank c = false := fun c hc => hslashes c hc ▸ not_isBlank_slash
  have hend' : ∀ c, (pattern.toList ++ slashes.toList).getLast? = some c → isBlank c = false := by
    intro c hc
    rw [List.getLast?_append] at hc
    cases hs : slashes.toList.getLast? with
    | none => exact hend c (by simpa [hs] using hc)
    | some d =>
        obtain rfl : d = c := by simpa [hs] using hc
        exact hsolid d (List.mem_of_getLast? hs)
  have htext : (lead ++ pattern ++ slashes ++ after).toList =
      lead.toList ++ (pattern.toList ++ slashes.toList) ++ after.toList := by simp
  calc clean (lead ++ pattern ++ slashes ++ after)
      = dropEnd (· = '/') (trim (pattern.toList ++ slashes.toList)) := by rw [clean, htext, trim_surrounded hlead hafter]
    _ = dropEnd (· = '/') (trimStart pattern.toList ++ slashes.toList) := by rw [trim_of_last hend', trimStart_append hsolid]
    _ = dropEnd (· = '/') (trimStart pattern.toList) := dropEnd_append_of_all fun c hc => by simpa using hslashes c hc
    _ = clean pattern := by rw [clean, trim_of_last hend]

theorem clean_of_slashes (h : AllSlashes pattern) : clean pattern = [] := by
  have hempty : AllBlank "" := by simp [AllBlank]
  have hs : clean ("" ++ "" ++ pattern ++ "") = clean "" := clean_surrounded (by simp) hempty h hempty
  rw [String.append_empty, String.empty_append, String.empty_append] at hs
  exact hs

/-- A pattern that names a file catches it in every directory. -/
theorem catches_child (hreads : Reads pattern glob) (hslash : '/' ∉ clean pattern) (haccepts : glob.accepts name = true)
    (hname : IsName name) (dir : Path) : Catches pattern (dir.child name) :=
  ⟨glob, hreads, .inr ⟨hslash, name, fileName?_child hname dir, haccepts⟩⟩

/-- The names that are ignored by default are patterns that name themselves. -/
theorem catches_default (h : name ∈ defaults) (hpath : path.fileName? = some name) : Catches name path := by
  have hplain : ∀ n ∈ defaults, clean n = n.toList ∧ n ≠ "" ∧ '/' ∉ n.toList ∧ Glob.IsLiteral n := by decide +kernel
  obtain ⟨hclean, hne, hslash, hliteral⟩ := hplain name h
  refine ⟨⟨Glob.literals name.toList⟩, ⟨?_, ?_⟩, .inr ⟨hclean ▸ hslash, name, hpath, Glob.accepts_literals.2 rfl⟩⟩
  · rw [hclean]
    simpa using hne
  · rw [hclean, String.ofList_toList]
    exact Glob.read_literal hliteral

/-- A filter is the union of its patterns. Two lists make one just if each of them does, and it hides what the filter of
one of them hides; hence a list whose patterns all occur in another hides no more, whatever the order and however often.
Blank patterns and patterns of slashes might as well not be there, nor do slashes behind a pattern and blanks around it
all show. A pattern for a name hides it in every directory, and every filter made for a source hides the default names. -/
theorem ofPatterns_union :
    (∀ ps qs, Builds (ps ++ qs) ↔ Builds ps ∧ Builds qs) ∧
    (∀ ps qs path, Builds (ps ++ qs) → (Hides (ps ++ qs) path ↔ Hides ps path ∨ Hides qs path)) ∧
    (∀ ps qs, ps ⊆ qs → Builds qs → Builds ps ∧ ∀ path, Hides ps path → Hides qs path) ∧
    (∀ ps qs pattern, AllBlank pattern ∨ AllSlashes pattern → ofPatterns (ps ++ pattern :: qs) = ofPatterns (ps ++ qs)) ∧
    (∀ ps qs pattern lead slashes after, (∀ c, pattern.toList.getLast? = some c → isBlank c = false) → AllBlank lead →
      AllSlashes slashes → AllBlank after →
      ofPatterns (ps ++ (lead ++ pattern ++ slashes ++ after) :: qs) = ofPatterns (ps ++ pattern :: qs)) ∧
    (∀ patterns pattern glob name, Builds patterns → pattern ∈ patterns → Reads pattern glob → '/' ∉ clean pattern →
      glob.accepts name = true → IsName name → ∀ dir : Path, Hides patterns (dir.child name)) ∧
    (∀ source patterns filter w w', Build.filterFor source patterns w = .ok filter w' → ∀ path name,
      path.fileName? = some name → name ∈ defaults → filter.hides path = true) := by
  refine ⟨fun ps qs => ?append, fun ps qs path hbuilds => ?union, fun ps qs hsub hbuilds => ?subset, fun ps qs pattern h => ?drop,
    fun ps qs pattern lead slashes after hend hlead hslashes hafter => ?spelled,
    fun patterns pattern glob name hbuilds hmem hreads hslash haccepts hname dir => ?name,
    fun source patterns filter w w' hfilter path name hpath hname => ?default⟩
  case append =>
    rw [builds_iff, builds_iff, builds_iff]
    exact List.forall_mem_append
  case union =>
    have hparts : Builds ps ∧ Builds qs := by
      rw [builds_iff] at hbuilds ⊢
      rw [builds_iff]
      exact List.forall_mem_append.1 hbuilds
    rw [hides_patterns_iff, hides_patterns_iff, hides_patterns_iff]
    simp only [hbuilds, hparts.1, hparts.2, true_and, List.mem_append, or_and_right, exists_or]
  case subset =>
    have hps : Builds ps := builds_iff.2 fun p hp => builds_iff.1 hbuilds p (hsub hp)
    refine ⟨hps, fun path hhides => ?_⟩
    obtain ⟨-, p, hp, hcatch⟩ := hides_patterns_iff.1 hhides
    exact hides_patterns_iff.2 ⟨hbuilds, p, hsub hp, hcatch⟩
  case drop => exact ofPatterns_drop (h.elim clean_of_blank clean_of_slashes) ps qs
  case spelled => exact ofPatterns_replace (clean_surrounded hend hlead hslashes hafter) ps qs
  case name => exact hides_patterns_iff.2 ⟨hbuilds, pattern, hmem, catches_child hreads hslash haccepts hname dir⟩
  case default =>
    obtain ⟨own, -, hpatterns⟩ := Build.filterFor_ok hfilter
    refine (hides_iff hpatterns).2 ⟨name, ?_, catches_default hname hpath⟩
    exact List.mem_append_left _ (List.mem_append_left _ hname)

end SiteTree.Ignore
