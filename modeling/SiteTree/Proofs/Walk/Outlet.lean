import SiteTree.Proofs.EntryName
import SiteTree.Proofs.Walk.Handed
import SiteTree.Proofs.Walk.Layout

/-!
The one path that a file of the source may be written to, by whatever takes it, and which files of a
tree of literal names share it.
-/

namespace SiteTree.Walk

open SiteTree.Action FileSystem EntryName SiteTree.Path Text

variable {links : List LinkKind} {options : Options} {source target dest p q : Path} {base l m a b : List String}
  {s t : String} {w w' : World} {u : Unit} {x : Handover}

/-- Where a file is written: a page beside or below its target, anything else at its target. Stylesheets that
are only imported are written nowhere. -/
def outlet (links : List LinkKind) (source target : Path) : Option Path :=
  if .page ∈ links ∧ source.hasExtension LinkKind.page.name = true then some (Page.placeOf target)
  else if .stylesheet ∈ links ∧ source.hasExtension LinkKind.stylesheet.name = true ∧
    source.fileName? ≠ some Stylesheet.entryName then none
  else some target

/-- What a successful emission has done to the files. -/
inductive Effect (links : List LinkKind) (source target : Path) (w w' : World) : Prop
  | written (p : Path) (text : String) (w₁ w₂ : World) (ho : outlet links source target = some p)
      (hr : w₁.files = w.files) (hw : writeText p text w₁ = .ok () w₂) (hs : w'.files = w₂.files)
  | copied (ho : outlet links source target = some target) (hc : copy source target w = .ok () w')
  | kept (ho : outlet links source target = some target) (he : w.files.pathExists w.cwd target = true)
      (hs : w'.files = w.files)
  | dropped (ho : outlet links source target = none) (hs : w'.files = w.files)

/-- Where the layout has a file of literal names. -/
def place (links : List LinkKind) (names : List String) : Option (List String) :=
  Contribution.layout links ⟨names, names, .empty⟩

theorem cutName_ejs (ht : t ≠ "") : cutName (t ++ ".ejs").toList = (t.toList, some LinkKind.page.name.toList) := by
  rw [String.toList_append, show ".ejs".toList = '.' :: LinkKind.page.name.toList from rfl]
  exact cutName_append (by simpa using ht) (by decide)

theorem eq_ejs_of_cutName (h : (cutName s.toList).2 = some LinkKind.page.name.toList) : ∃ t, t ≠ "" ∧ s = t ++ ".ejs" := by
  obtain ⟨stem, hcut⟩ : ∃ stem, cutName s.toList = (stem, some LinkKind.page.name.toList) := ⟨_, by rw [← h]⟩
  refine ⟨String.ofList stem, by simpa using (cutName_some hcut).1, ?_⟩
  rw [← String.toList_inj, cutName_eq_some hcut]
  simp [LinkKind.name]

theorem taker?_eq_some {c : Contribution} {kind : LinkKind} : c.taker? links = some kind ↔
    kind ∈ links ∧ (cutName c.name.toList).2 = some kind.name.toList := by
  constructor
  · intro h
    exact ⟨List.mem_of_find?_eq_some h, by simpa using List.find?_some h⟩
  · rintro ⟨hk, hext⟩
    cases hf : c.taker? links with
    | none => simpa [hext] using List.find?_eq_none.1 hf kind hk
    | some k =>
        have hk' : (cutName c.name.toList).2 = some k.name.toList := by simpa using List.find?_some hf
        have hsame := hk'.symm.trans hext
        rw [LinkKind.name_inj (String.toList_inj.1 (Option.some.inj hsame))]

theorem place_append (links : List LinkKind) (l : List String) (s : String) : place links (l ++ [s]) =
    if .page ∈ links ∧ (cutName s.toList).2 = some LinkKind.page.name.toList then
      some (Contribution.pageTarget (l ++ [s]))
    else if .stylesheet ∈ links ∧ (cutName s.toList).2 = some LinkKind.stylesheet.name.toList ∧
      s ≠ Stylesheet.entryName then none
    else some (l ++ [s]) := by
  let c : Contribution := ⟨l ++ [s], l ++ [s], .empty⟩
  have hname : c.name = s := by simp [c, Contribution.name]
  have htaker : ∀ kind, c.taker? links = some kind ↔ kind ∈ links ∧ (cutName s.toList).2 = some kind.name.toList := by
    intro kind
    rw [taker?_eq_some, hname]
  show c.layout links = _
  rw [Contribution.layout, hname]
  cases ht : c.taker? links with
  | none =>
      have hnone : ∀ kind, ¬ (kind ∈ links ∧ (cutName s.toList).2 = some kind.name.toList) := fun kind hk => by
        rw [(htaker kind).2 hk] at ht
        cases ht
      show some (l ++ [s]) = _
      rw [if_neg (hnone .page), if_neg fun h => hnone .stylesheet ⟨h.1, h.2.1⟩]
  | some kind =>
      obtain ⟨hk, hext⟩ := (htaker kind).1 ht
      cases kind with
      | page =>
          show some (Contribution.pageTarget (l ++ [s])) = _
          rw [if_pos ⟨hk, hext⟩]
      | stylesheet =>
          show (if s = Stylesheet.entryName then some (l ++ [s]) else none) = _
          have hpage : ¬ (.page ∈ links ∧ (cutName s.toList).2 = some LinkKind.page.name.toList) := fun h => by
            simp [hext, LinkKind.name] at h
          by_cases hs : s = Stylesheet.entryName
          · rw [if_pos hs, if_neg hpage, if_neg fun h => h.2.2 hs]
          · rw [if_neg hs, if_neg hpage, if_pos ⟨hk, hext, hs⟩]

/-- Files of these names share a path: the second is at the place that the first, a page, goes to. -/
def Rivals (a b : List String) : Prop :=
  ∃ d t, t ≠ "" ∧ a = d ++ [t ++ ".ejs"] ∧
    if t = "index" then b = d ++ ["index.html"] else b = d ++ [t, "index.html"] ∨ b = d ++ [t, "index.ejs"]

theorem place_page (hk : .page ∈ links) (ht : t ≠ "") (d : List String) : place links (d ++ [t ++ ".ejs"]) =
    some (d ++ if t = "index" then ["index.html"] else [t, "index.html"]) := by
  rw [place_append, cutName_ejs ht, if_pos ⟨hk, rfl⟩, Contribution.pageTarget_append, cutName_ejs ht]
  simp

theorem place_html (links : List LinkKind) (d : List String) :
    place links (d ++ ["index.html"]) = some (d ++ ["index.html"]) := by
  have hcut : (cutName "index.html".toList).2 = some "html".toList := by decide
  rw [place_append, hcut, if_neg (by simp [LinkKind.name]), if_neg (by simp [LinkKind.name])]

/-- A file is a page and goes to the page's place, or stays at its own names if it goes anywhere. -/
theorem place_cases (h : place links a = some m) (hne : a ≠ []) :
    (.page ∈ links ∧ ∃ d t, t ≠ "" ∧ a = d ++ [t ++ ".ejs"] ∧
      m = d ++ if t = "index" then ["index.html"] else [t, "index.html"]) ∨ m = a := by
  obtain ⟨d, s, rfl⟩ := (List.eq_nil_or_concat' a).resolve_left hne
  have hcases := h
  rw [place_append] at hcases
  split at hcases
  · next hpage =>
    obtain ⟨hk, hext⟩ := hpage
    obtain ⟨t, ht, rfl⟩ := eq_ejs_of_cutName hext
    rw [place_page hk ht] at h
    exact .inl ⟨hk, d, t, ht, rfl, (Option.some.inj h).symm⟩
  split at hcases
  · cases hcases
  · exact .inr (Option.some.inj hcases).symm

theorem Rivals.place (h : Rivals a b) (hk : .page ∈ links) : ∃ m, place links a = some m ∧ place links b = some m := by
  obtain ⟨d, t, ht, rfl, hb⟩ := h
  refine ⟨_, place_page hk ht d, ?_⟩
  have happ : ∀ s, d ++ [t, s] = d ++ [t] ++ [s] := fun s => by simp
  by_cases hi : t = "index"
  · rw [if_pos hi] at hb ⊢
    rw [hb, place_html]
  · rw [if_neg hi] at hb ⊢
    rcases hb with rfl | rfl
    · rw [happ, place_html]
    · rw [happ, happ, show "index.ejs" = "index" ++ ".ejs" from rfl, place_page hk (by decide), if_pos rfl]

/-- Two pages go to one place only if one of them is the index of the directory that the other gets. -/
theorem rivals_of_pages {d d' : List String} {t t' : String} (hne : d ++ [t ++ ".ejs"] ≠ d' ++ [t' ++ ".ejs"])
    (ht : t ≠ "") (ht' : t' ≠ "")
    (h : (d ++ if t = "index" then ["index.html"] else [t, "index.html"]) =
      d' ++ if t' = "index" then ["index.html"] else [t', "index.html"]) :
    Rivals (d ++ [t ++ ".ejs"]) (d' ++ [t' ++ ".ejs"]) ∨ Rivals (d' ++ [t' ++ ".ejs"]) (d ++ [t ++ ".ejs"]) := by
  have happ : ∀ (d : List String) s, d ++ [s, "index.html"] = d ++ [s] ++ ["index.html"] := fun d s => by simp
  by_cases hi : t = "index" <;> by_cases hi' : t' = "index"
  · subst hi hi'
    rw [if_pos rfl] at h
    exact absurd (by rw [List.append_cancel_right h]) hne
  · subst hi
    rw [if_pos rfl, if_neg hi', happ] at h
    obtain rfl := List.append_cancel_right h
    exact .inr ⟨d', t', ht', rfl, by rw [if_neg hi']; exact .inr (by simp)⟩
  · subst hi'
    rw [if_pos rfl, if_neg hi, happ] at h
    obtain rfl := List.append_cancel_right h
    exact .inl ⟨d, t, ht, rfl, by rw [if_neg hi]; exact .inr (by simp)⟩
  · rw [if_neg hi, if_neg hi', happ, happ] at h
    obtain ⟨rfl, hs⟩ := List.append_inj' (List.append_cancel_right h) rfl
    obtain rfl : t = t' := by simpa using hs
    exact absurd rfl hne

/-- Different files of literal names have one place only if they are rivals. -/
theorem place_eq_iff (hne : a ≠ b) (ha : a ≠ []) (hb : b ≠ []) :
    (∃ m, place links a = some m ∧ place links b = some m) ↔ .page ∈ links ∧ (Rivals a b ∨ Rivals b a) := by
  constructor
  · rintro ⟨m, hpa, hpb⟩
    rcases place_cases hpa ha with ⟨hk, d, t, ht, rfl, rfl⟩ | rfl
    · refine ⟨hk, ?_⟩
      rcases place_cases hpb hb with ⟨-, d', t', ht', rfl, hm⟩ | rfl
      · exact rivals_of_pages hne ht ht' hm
      · refine .inl ⟨d, t, ht, rfl, ?_⟩
        by_cases hi : t = "index"
        · rw [if_pos hi, if_pos hi]
        · rw [if_neg hi, if_neg hi]
          exact .inl rfl
    · rcases place_cases hpb hb with ⟨hk, d, t, ht, rfl, rfl⟩ | rfl
      · refine ⟨hk, .inr ⟨d, t, ht, rfl, ?_⟩⟩
        by_cases hi : t = "index"
        · rw [if_pos hi, if_pos hi]
        · rw [if_neg hi, if_neg hi]
          exact .inl rfl
      · exact absurd rfl hne
  · rintro ⟨hk, h | h⟩
    · exact h.place hk
    · obtain ⟨m, hb, ha⟩ := h.place hk
      exact ⟨m, ha, hb⟩

namespace Handover

/-- Every name on the way is literal and plain. -/
def IsLiteral (x : Handover) : Prop := ∀ s ∈ x.names, form s = .literal ∧ IsPlain s

instance (x : Handover) : Decidable x.IsLiteral :=
  inferInstanceAs (Decidable (∀ s ∈ x.names, form s = .literal ∧ IsPlain s))

theorem Along.trail_eq {scope : Scope} {way : List (Entry × Expansion)} (h : Along scope way)
    (hl : ∀ s ∈ way.map (·.1.name), form s = .literal) :
    (way.filter (·.2.form ≠ .loop)).map (·.2.name) = way.map (·.1.name) := by
  induction way generalizing scope with
  | nil => rfl
  | cons step way ih =>
      obtain ⟨entry, e⟩ := step
      obtain ⟨⟨expansions, hexp, he⟩, hway⟩ := h
      cases (expand_literal (hl entry.name (by simp)) scope).symm.trans hexp
      obtain rfl := List.mem_singleton.1 he
      rw [List.filter_cons_of_pos (by simp), List.map_cons, List.map_cons,
        ih hway fun s hs => hl s (List.mem_cons_of_mem _ hs)]

/-- The last name of a file of literal names, with what its paths spell. -/
structure Aimed (base : List String) (x : Handover) (l : List String) (s : String) : Prop where
  names : x.names = l ++ [s]
  trail : x.trail = l ++ [s]
  plain : IsPlain s
  above : ∀ t ∈ l, IsName t
  source : x.source.fileChars? = some s.toList
  target : x.target.Spells (base ++ (l ++ [s]))
  isOpen : x.target.IsOpen

theorem Leads.aimed {dir : Path} (h : x.Leads options dir dest) (hl : x.IsLiteral) (hd : dest.Spells base)
    (hdir : dir.text ≠ "") : ∃ l s, x.Aimed base l s := by
  have htrail : x.trail = x.names := h.along.trail_eq fun s hs => (hl s hs).1
  obtain ⟨l, s, hls⟩ := (List.eq_nil_or_concat' x.names).resolve_left (htrail ▸ h.named)
  have hplain : ∀ t ∈ l ++ [s], IsPlain t := fun t ht => (hl t (hls ▸ ht)).2
  have hs : IsPlain s := hplain s (by simp)
  have habove : ∀ t ∈ l, IsName t := fun t ht => (hplain t (List.mem_append_left _ ht)).isName
  have htarget : x.target = (dest.descend l).child s := by rw [h.target, htrail, hls, descend_append]
  obtain ⟨hspells, hopen⟩ := (hd.descend habove).child hs.isName
  refine ⟨l, s, hls, htrail.trans hls, hs, habove, ?_, ?_, ?_⟩
  · rw [h.source, hls, descend_append, fileChars_child hs.isName (descend_ne_empty hdir habove)]
  · rwa [htarget, ← List.append_assoc]
  · rwa [htarget]

end Handover

theorem hasExtension_of_name {kind : LinkKind} (h : source.fileChars? = some s.toList) :
    (source.hasExtension kind.name = true) = ((cutName s.toList).2 = some kind.name.toList) :=
  propext (hasExtension_iff h _)

/-- A path to be written spells the place that the layout has. -/
theorem outlet_spells (links : List LinkKind) (h : x.Aimed base l s) :
    (outlet links x.source x.target = none ∧ place links x.trail = none) ∨
      ∃ p m, outlet links x.source x.target = some p ∧ place links x.trail = some m ∧ p.Spells (base ++ m) := by
  have hentry : (x.source.fileName? ≠ some Stylesheet.entryName) = (s ≠ Stylesheet.entryName) := by
    simp [fileName?, h.source]
  rw [h.trail, place_append, outlet]
  simp only [hasExtension_of_name h.source, hentry]
  split
  · exact .inr ⟨_, _, rfl, rfl, (placeOf_pageTarget h.above h.plain h.target h.isOpen).2.1⟩
  split
  · exact .inl ⟨rfl, rfl⟩
  · exact .inr ⟨_, _, rfl, rfl, h.target⟩

/-- What is done to the files for a file of literal names is done at its outlet. -/
theorem emit_effect (h : x.Aimed base l s) (hone : options.links.count .stylesheet ≤ 1)
    (hrun : emit options x.source x.target w = .ok u w') : Effect options.links x.source x.target w w' := by
  obtain ⟨applied, w₁, hchain, hrest⟩ := bind_eq_ok hrun
  by_cases hpage : .page ∈ options.links ∧ x.source.hasExtension LinkKind.page.name = true
  · obtain ⟨-, hspells, -, k, hindex⟩ := placeOf_pageTarget h.above h.plain h.target h.isOpen
    have hplace : (Page.placeOf x.target).fileChars? = some "index.html".toList := by
      rw [hindex, ← List.append_assoc] at hspells
      exact hspells.fileChars (by decide)
    obtain ⟨rfl, text, w₂, w₃, u', hread, hwrite, hfiles⟩ := runChain_page hpage.1 hpage.2 hplace hchain
    cases hrest
    exact .written _ text w₂ w₃ (if_pos hpage) hread hwrite hfiles
  by_cases hcss : .stylesheet ∈ options.links ∧ x.source.hasExtension LinkKind.stylesheet.name = true
  · have hfile : x.target.fileChars? = some s.toList := by
      have htarget := h.target
      rw [← List.append_assoc] at htarget
      exact htarget.fileChars h.plain.isName.2.2.1
    have hentry : x.source.fileName? = some Stylesheet.entryName →
        x.target.fileChars? = some Stylesheet.entryName.toList := by
      intro he
      have hs : s = Stylesheet.entryName := by simpa [fileName?, h.source] using he
      rw [hfile, hs]
    obtain ⟨rfl, hwritten⟩ := runChain_stylesheet hcss.1 hcss.2 hone hentry hchain
    cases hrest
    split at hwritten
    · next he =>
      obtain ⟨text, w₂, w₃, u', hread, hwrite, hfiles⟩ := hwritten
      refine .written _ text w₂ w₃ ?_ hread hwrite hfiles
      rw [outlet, if_neg hpage, if_neg fun hc => hc.2.2 he]
    · next he =>
      refine .dropped ?_ hwritten
      rw [outlet, if_neg hpage, if_pos ⟨hcss.1, hcss.2, he⟩]
  have hout : outlet options.links x.source x.target = some x.target := by
    rw [outlet, if_neg hpage, if_neg fun hc => hcss ⟨hc.1, hc.2.1⟩]
  have hdeclined : ∀ kind ∈ options.links, x.source.hasExtension kind.name = false := by
    intro kind hk
    rw [Bool.eq_false_iff]
    intro hext
    cases kind with
    | page => exact hpage ⟨hk, hext⟩
    | stylesheet => exact hcss ⟨hk, hext⟩
  rcases emit_declined hdeclined hrun with ⟨hthere, hsame⟩ | ⟨-, hcopy⟩
  · exact .kept hout hthere hsame
  · exact .copied hout hcopy

/-- Two files of literal names are written to one path exactly if they are rivals, with a link for pages. -/
theorem outlets_alike_iff {y : Handover} {dir : Path} {limits : Limits} {n : Nat} (hd : dest.Spells base)
    (hdir : dir.text ≠ "") (hx : x ∈ handed Walk.emit limits n options dir dest w)
    (hy : y ∈ handed Walk.emit limits n options dir dest w) (hlx : x.IsLiteral) (hly : y.IsLiteral)
    (hne : x.source ≠ y.source) :
    (∃ p ∈ outlet options.links x.source x.target, ∃ q ∈ outlet options.links y.source y.target, p.alike q = true) ↔
      .page ∈ options.links ∧ (Rivals x.trail y.trail ∨ Rivals y.trail x.trail) := by
  have hleadsx := handed_leads hx
  have hleadsy := handed_leads hy
  obtain ⟨l, s, hax⟩ := hleadsx.aimed hlx hd hdir
  obtain ⟨m, t, hay⟩ := hleadsy.aimed hly hd hdir
  have hnetrail : x.trail ≠ y.trail := by
    rw [hax.trail, hay.trail, ← hax.names, ← hay.names]
    intro he
    exact hne (by rw [hleadsx.source, hleadsy.source, he])
  rw [← place_eq_iff hnetrail hleadsx.named hleadsy.named]
  rcases outlet_spells options.links hax with ⟨hox, hpx⟩ | ⟨p, k, hox, hpx, hp⟩
  · simp [hox, hpx]
  rcases outlet_spells options.links hay with ⟨hoy, hpy⟩ | ⟨q, k', hoy, hpy, hq⟩
  · simp [hoy, hpy]
  simp only [hox, hoy, hpx, hpy, Option.mem_some_iff, exists_eq_left', Option.some.injEq, hp.alike_iff hq, List.append_cancel_left_eq]
  exact eq_comm

end SiteTree.Walk
