import SiteTree.Proofs.Path.Child
import SiteTree.Proofs.Path.Resolved
import SiteTree.Proofs.Walk.Outlet

/-!
Where the pages of a directory's templates lie if dots are resolved as they are written. Each lies in the directory,
apart from all others, but for the templates whose names are only dots before the extension: their pages lie in the
directory above, both in the same place.
-/

namespace SiteTree.Path

open FileSystem Text

variable {cwd : Location} {p q : Path} {s name t : String} {stem ext : List Char}

theorem resolved_child (hs : IsName s) (cwd : Location) (p : Path) : (p.child s).resolved cwd = p.resolved cwd ++ [s] := by
  have hnames : ∀ n ∈ [s], IsName n := by simpa using hs
  exact resolved_descend_names hnames cwd p

theorem resolved_child_up (cwd : Location) (p : Path) : (p.child "..").resolved cwd = (p.resolved cwd).dropLast := by
  rw [child, resolved_join, resolved_of_relative (by decide)]
  rfl

theorem resolved_dots (cwd : Location) (n : Nat) : settle cwd (List.replicate n ".") = cwd := by
  induction n with
  | zero => rfl
  | succ n ih => exact ih

theorem resolved_trimmed (hp : p.text ≠ "") (cwd : Location) : p.trimmed.resolved cwd = p.resolved cwd := by
  obtain ⟨n, hn⟩ := stretches_trimmed hp
  have hlead : p.trimmed.text.toList.head? = some '/' ↔ p.text.toList.head? = some '/' := by
    rw [← lead_eq_root, ← lead_eq_root, (parts_trimmed hp).1]
  rw [resolved, resolved, hn, settle_append, resolved_dots, startOf, startOf]
  simp only [hlead]

/-- The parent of a child is where the path is. -/
theorem exists_parent_child (hs : IsName s) (p : Path) :
    ∃ q, (p.child s).parent? = some q ∧ ∀ cwd, q.resolved cwd = p.resolved cwd := by
  by_cases hp : p.text = ""
  · refine ⟨⟨""⟩, ?_, fun cwd => ?_⟩
    · rw [child_of_empty hp, parent?, parts_single hs.2.2.2 hs.2.1, ← List.nil_append [s.toList],
        splitBody?_append_singleton, isFiller_name hs]
      rfl
    · rw [resolved, resolved, hp]
  · exact ⟨p.trimmed, parent?_child hs hp, resolved_trimmed hp⟩

/-- A stem without its extension; a single dot is left with the dot in front of the extension. -/
theorem withExtension_child (hs : IsName s) (hcut : cutName s.toList = (stem, some ext)) (p : Path) :
    (p.child s).withExtension "" = p.child (if stem = ['.'] then ".." else String.ofList stem) := by
  obtain ⟨before, hbefore⟩ := exists_text_child p
  have htext := cutName_eq_some hcut
  have hslash : '/' ∉ stem := fun hc => hs.2.2.2 (by rw [htext]; exact List.mem_append_left _ hc)
  have hslash' : '/' ∉ (String.ofList (stem ++ ['.'])).toList := by simpa using hslash
  have hcuttext : ofChars ((p.child s).text.toList.take ((p.child s).text.length - ext.length)) =
      p.child (String.ofList (stem ++ ['.'])) := by
    have happ : (p.child s).text.toList = (p.child (String.ofList (stem ++ ['.']))).text.toList ++ ext := by
      rw [hbefore s hs.2.2.2, hbefore _ hslash', htext, String.toList_ofList]
      simp
    rw [← String.length_toList, happ, List.length_append, Nat.add_sub_cancel, List.take_left, ofChars, String.ofList_toList]
  rw [withExtension, extensionChars?_child hs, hcut]
  show (ofChars _).setExtension "" = _
  rw [hcuttext]
  split
  · next hdot =>
    rw [hdot]
    exact setExtension_child_up p ""
  · next hdot =>
    have hstem : stem ≠ [] := (cutName_some hcut).1
    have hname : IsName (String.ofList (stem ++ ['.'])) := by
      refine ⟨?_, ?_, ?_, hslash'⟩ <;> intro he <;> have hl := congrArg String.toList he <;> simp at hl
      · exact hstem hl
      · rcases stem with _ | ⟨c, _ | _⟩ <;> simp_all
    have hcutdot : (cutName (String.ofList (stem ++ ['.'])).toList).1 = stem := by
      rw [String.toList_ofList, cutName_append_dot hstem]
    rw [setExtension_child hname (by rwa [hcutdot]), hcutdot]

end SiteTree.Path

namespace SiteTree.Page

open SiteTree.Path FileSystem Text Walk

variable {cwd loc : Location} {dir source : Path} {s t s' t' : String} {options : Options} {w w' : World} {outcome : Outcome}

/-- The name of a template and its stem. -/
structure IsTemplate (s t : String) : Prop where
  isName : IsName s
  extension : Path.hasExtension ⟨s⟩ "ejs" = true
  stem : Path.stem? ⟨s⟩ = some t

/-- Before its extension there is nothing but one dot or two. -/
def IsDotted (t : String) : Prop := t = "." ∨ t = ".."

instance (t : String) : Decidable (IsDotted t) := inferInstanceAs (Decidable (_ ∨ _))

/-- The directory of the page, for a template in the given directory. -/
def folder (dir : Location) (t : String) : Location :=
  if t = "index" then dir else if IsDotted t then dir.dropLast else dir ++ [t]

theorem IsTemplate.cutName_eq (h : IsTemplate s t) : cutName s.toList = (t.toList, some "ejs".toList) := by
  have hext := (hasExtension_iff (fileChars?_name h.isName) "ejs").1 h.extension
  have hstem := h.stem
  rw [stem?, stemChars?, fileChars?_name h.isName] at hstem
  obtain rfl : String.ofList (cutName s.toList).1 = t := by simpa using hstem
  rw [String.toList_ofList, ← hext]

theorem IsTemplate.inj (h : IsTemplate s t) (h' : IsTemplate s' t) : s = s' := by
  rw [← String.toList_inj, cutName_eq_some h.cutName_eq, cutName_eq_some h'.cutName_eq]

theorem IsTemplate.isName_stem (h : IsTemplate s t) (hdotted : ¬ IsDotted t) : IsName t := by
  refine ⟨?_, fun he => hdotted (.inl he), fun he => hdotted (.inr he), fun hc => h.isName.2.2.2 ?_⟩
  · have hne := (cutName_some h.cutName_eq).1
    simpa using hne
  · rw [cutName_eq_some h.cutName_eq]
    exact List.mem_append_left _ hc

theorem isName_indexPage : IsName "index.html" := by decide

section

variable (h : IsTemplate s t)

include h

theorem IsTemplate.placeOf_index (ht : t = "index") (dir : Path) : ∃ q : Path, placeOf (dir.child s) = q.child "index.html" ∧
    ∀ cwd, q.resolved cwd = dir.resolved cwd := by
  obtain ⟨q, hq, hresolved⟩ := exists_parent_child h.isName dir
  have hstem : (dir.child s).stem? = some "index" := by
    rw [stem?, stemChars?_child h.isName, h.cutName_eq, ← ht]
    exact congrArg some String.ofList_toList
  refine ⟨q, ?_, hresolved⟩
  rw [placeOf, if_pos hstem, withFileName, fileChars?_child h.isName, hq]

theorem IsTemplate.placeOf_other (ht : t ≠ "index") (dir : Path) :
    placeOf (dir.child s) = (dir.child (if t = "." then ".." else t)).child "index.html" := by
  have hstem : (dir.child s).stem? ≠ some "index" := by
    rw [stem?, stemChars?_child h.isName, h.cutName_eq]
    intro he
    exact ht (by simpa using he)
  have hdot : (t.toList = ['.']) = (t = ".") := propext (@String.toList_inj t ".")
  rw [placeOf, if_neg hstem, withExtension_child h.isName h.cutName_eq]
  simp only [hdot, String.ofList_toList]
  rfl

theorem IsTemplate.fileName_page (dir : Path) : (placeOf (dir.child s)).fileName? = some "index.html" := by
  by_cases ht : t = "index"
  · obtain ⟨q, hq, -⟩ := h.placeOf_index ht dir
    rw [hq, fileName?_child isName_indexPage]
  · rw [h.placeOf_other ht, fileName?_child isName_indexPage]

theorem IsTemplate.resolved_page (dir : Path) (cwd : Location) :
    (placeOf (dir.child s)).resolved cwd = folder (dir.resolved cwd) t ++ ["index.html"] := by
  by_cases ht : t = "index"
  · obtain ⟨q, hq, hresolved⟩ := h.placeOf_index ht dir
    rw [folder, if_pos ht, hq, resolved_child isName_indexPage, hresolved]
  rw [folder, if_neg ht, h.placeOf_other ht, resolved_child isName_indexPage]
  by_cases hdotted : IsDotted t
  · have hup : (if t = "." then ".." else t) = ".." := by
      rcases hdotted with rfl | rfl <;> rfl
    rw [if_pos hdotted, hup, resolved_child_up]
  · have hdot : t ≠ "." := fun he => hdotted (.inl he)
    rw [if_neg hdotted, if_neg hdot, resolved_child (h.isName_stem hdotted)]

end

theorem folder_of_dotted (h : IsDotted t) (loc : Location) : folder loc t = loc.dropLast := by
  have hne : t ≠ "index" := by rcases h with rfl | rfl <;> decide
  rw [folder, if_neg hne, if_pos h]

theorem folder_of_not_dotted (h : ¬ IsDotted t) (loc : Location) :
    folder loc t = loc ++ if t = "index" then [] else [t] := by
  rw [folder, if_neg h]
  split
  · rw [List.append_nil]
  · rfl

/-- A page lies below the directory, unless the template's stem is dotted and there is a directory above. -/
theorem page_below_iff : (loc <+: folder loc t ++ ["index.html"] ∧ folder loc t ++ ["index.html"] ≠ loc) ↔
    ¬ IsDotted t ∨ loc = [] := by
  by_cases hdotted : IsDotted t
  · rw [folder_of_dotted hdotted, or_iff_right (not_not.2 hdotted)]
    rcases List.eq_nil_or_concat' loc with rfl | ⟨front, last, rfl⟩
    · simp
    · -- The page and the directory have equally many names, so one is below the other only if they are the same.
      rw [List.dropLast_concat]
      refine iff_of_false (fun ⟨hpre, hne⟩ => hne (hpre.eq_of_length ?_).symm) (by simp)
      rw [List.length_append, List.length_append, List.length_singleton, List.length_singleton]
  · rw [folder_of_not_dotted hdotted, List.append_assoc]
    exact iff_of_true ⟨List.prefix_append _ _, by simp⟩ (.inl hdotted)

/-- Two stems have the same folder only if both are dotted, or one is and the other is that of the index, at the root. -/
theorem folder_eq_iff (hne : t ≠ t') : folder loc t = folder loc t' ↔
    IsDotted t ∧ IsDotted t' ∨ loc = [] ∧ (IsDotted t ∧ t' = "index" ∨ t = "index" ∧ IsDotted t') := by
  have hdrop : ∀ u : String, loc.dropLast = loc ++ (if u = "index" then [] else [u]) ↔ loc = [] ∧ u = "index" := by
    intro u
    constructor
    · intro he
      have hlen := congrArg List.length he
      rw [List.length_dropLast, List.length_append] at hlen
      by_cases hu : u = "index"
      · rw [if_pos hu, List.length_nil] at hlen
        exact ⟨List.eq_nil_iff_length_eq_zero.2 (by omega), hu⟩
      · rw [if_neg hu, List.length_singleton] at hlen
        omega
    · rintro ⟨rfl, rfl⟩
      rfl
  have hindex : ¬ IsDotted "index" := by decide
  by_cases h : IsDotted t <;> by_cases h' : IsDotted t'
  · rw [folder_of_dotted h, folder_of_dotted h']
    exact iff_of_true rfl (.inl ⟨h, h'⟩)
  · rw [folder_of_dotted h, folder_of_not_dotted h', hdrop]
    simp [h, h']
  · rw [folder_of_not_dotted h, folder_of_dotted h', eq_comm, hdrop]
    simp [h, h']
  · rw [folder_of_not_dotted h, folder_of_not_dotted h', List.append_cancel_left_eq]
    simp only [h, h', false_and, and_false, or_self, iff_false]
    intro he
    by_cases ht : t = "index" <;> by_cases ht' : t' = "index"
    · exact hne (ht.trans ht'.symm)
    · rw [if_pos ht, if_neg ht'] at he
      cases he
    · rw [if_neg ht, if_pos ht'] at he
      cases he
    · rw [if_neg ht, if_neg ht'] at he
      exact hne (List.singleton_inj.1 he)

/-- The page of a template is named for the index and lies in the template's folder. It is below the directory of the
template just if its stem is not dotted or there is no directory above, and two templates of a directory have their pages
in one place only if both stems are dotted, or one is and the other template is the index of the root. The page is all
that the template writes. -/
theorem pages_apart (h : IsTemplate s t) (dir : Path) (cwd : Location) :
    ((placeOf (dir.child s)).fileName? = some "index.html" ∧
      (placeOf (dir.child s)).resolved cwd = folder (dir.resolved cwd) t ++ ["index.html"]) ∧
    (LiesBelow cwd dir (placeOf (dir.child s)) ↔ ¬ IsDotted t ∨ dir.resolved cwd = []) ∧
    (∀ s' t', IsTemplate s' t' → s ≠ s' →
      ((placeOf (dir.child s)).resolved cwd = (placeOf (dir.child s')).resolved cwd ↔ IsDotted t ∧ IsDotted t' ∨
        dir.resolved cwd = [] ∧ (IsDotted t ∧ t' = "index" ∨ t = "index" ∧ IsDotted t'))) ∧
    (∀ options source w outcome w', source.hasExtension "ejs" = true → offer options source (dir.child s) w = .ok outcome w' →
      outcome = .produced [placeOf (dir.child s)] ∧
        ∃ text w₁, w₁.files = w.files ∧ Action.writeText (placeOf (dir.child s)) text w₁ = .ok () w') := by
  have hpage := h.resolved_page dir cwd
  refine ⟨⟨h.fileName_page dir, hpage⟩, ?below, fun s' t' h' hne => ?apart,
    fun options source w outcome w' hsource hok => ?written⟩
  case below =>
    rw [LiesBelow, hpage]
    exact page_below_iff
  case apart =>
    have hstems : t ≠ t' := fun he => hne (h.inj (he ▸ h'))
    rw [hpage, h'.resolved_page, List.append_cancel_right_eq]
    exact folder_eq_iff hstems
  case written =>
    obtain ⟨rfl, text, w₁, u, hfiles, hw⟩ := offer_ok hsource hok
    exact ⟨rfl, text, w₁, hfiles, hw⟩

/-- Two templates of a site. -/
theorem aboutPage_apart : IsTemplate "about.ejs" "about" ∧ IsTemplate "index.ejs" "index" ∧ "about.ejs" ≠ "index.ejs" ∧
    (placeOf (Path.child ⟨"/site"⟩ "about.ejs")).resolved [] = ["site", "about", "index.html"] ∧
    LiesBelow [] ⟨"/site"⟩ (placeOf (Path.child ⟨"/site"⟩ "about.ejs")) ∧
    (placeOf (Path.child ⟨"/site"⟩ "about.ejs")).resolved [] ≠ (placeOf (Path.child ⟨"/site"⟩ "index.ejs")).resolved [] := by
  have habout : IsTemplate "about.ejs" "about" := ⟨by decide, by decide +kernel, by decide +kernel⟩
  have hindex : IsTemplate "index.ejs" "index" := ⟨by decide, by decide +kernel, by decide +kernel⟩
  obtain ⟨⟨-, hplace⟩, hbelow, hapart, -⟩ := pages_apart habout ⟨"/site"⟩ []
  have hdotted : ¬ IsDotted "about" := by decide
  have hindexDotted : ¬ IsDotted "index" := by decide
  refine ⟨habout, hindex, by decide, hplace.trans (by decide +kernel), hbelow.2 (.inl hdotted), fun he => ?_⟩
  rcases (hapart "index.ejs" "index" hindex (by decide)).1 he with ⟨hd, -⟩ | ⟨-, ⟨hd, -⟩ | ⟨-, hd⟩⟩
  · exact hdotted hd
  · exact hdotted hd
  · exact hindexDotted hd

/-- Names that are only dots before their extension: both pages are the one of the directory above. -/
theorem dottedPages_astray : IsTemplate "..ejs" "." ∧ IsTemplate "...ejs" ".." ∧
    placeOf ⟨"site/..ejs"⟩ = ⟨"site/../index.html"⟩ ∧ placeOf ⟨"site/...ejs"⟩ = ⟨"site/../index.html"⟩ ∧
    ¬ LiesBelow ["home"] ⟨"site"⟩ (placeOf ⟨"site/..ejs"⟩) := by
  refine ⟨⟨?_, ?_, ?_⟩, ⟨?_, ?_, ?_⟩, ?_, ?_, ?_⟩ <;> decide +kernel

end SiteTree.Page
