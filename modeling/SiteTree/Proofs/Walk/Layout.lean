import SiteTree.Proofs.FileSystem.Laid
import SiteTree.Proofs.FileSystem.Names
import SiteTree.Proofs.Walk.Contribution
import SiteTree.Proofs.Walk.Meets
import SiteTree.Proofs.Walk.Taken

/-!
A walk that succeeds puts the files of the source where the layout has them.
-/

namespace SiteTree.Walk

open SiteTree.Action FileSystem EntryName SiteTree.Path

variable {fs₀ fs fs' : FileSystem} {base : List String} {top : Location} {links : List LinkKind}
  {found : List Contribution} {c : Contribution} {options : Options} {source target : Path} {w w' : World}

/-- The files of the layout are there, and those that a link has taken are not hidden by others. -/
structure Emitted (links : List LinkKind) (top : Location) (found : List Contribution) (fs : FileSystem) : Prop where
  laid : Laid top (found.filterMap (·.layout links)) fs
  taken : ∀ c ∈ found, c.taker? links ≠ none → ∀ l ∈ c.layout links,
    ∃ bytes, fs.at? (top ++ l) = some (.file bytes)

theorem Emitted.moved {top' : Location} (h : Emitted links top found fs)
    (hm : ∀ l, fs'.at? (top' ++ l) = fs.at? (top ++ l)) : Emitted links top' found fs' :=
  ⟨h.laid.moved hm, fun c hc ht l hl => by rw [hm]; exact h.taken c hc ht l hl⟩

/-- What becomes of one file. -/
inductive EmitEnds (links : List LinkKind) (top : Location) (c : Contribution) (fs fs' : FileSystem) : Prop
  | filled (l : List String) (hl : c.layout links = some l) (hne : l ≠ []) (hf : Filled top l fs fs')
  | kept (l : List String) (hl : c.layout links = some l) (hne : l ≠ []) (ht : c.taker? links = none)
      (hsame : fs' = fs) (hs : (fs.at? (top ++ l)).isSome)
  | dropped (hl : c.layout links = none) (hsame : fs' = fs)

theorem Emitted.step (h : Emitted links top found fs) (he : EmitEnds links top c fs fs') :
    Emitted links top (found ++ [c]) fs' := by
  have hsplit : (found ++ [c]).filterMap (·.layout links) =
      found.filterMap (·.layout links) ++ (c.layout links).toList := by
    rw [List.filterMap_append]
    cases hl : c.layout links <;> simp [hl]
  rcases he with ⟨l, hl, hne, hf⟩ | ⟨l, hl, hne, ht, rfl, hs⟩ | ⟨hl, rfl⟩
  · refine ⟨by rw [hsplit, hl]; exact h.laid.fill hf hne, fun d hd ht k hk => ?_⟩
    rcases List.mem_append.1 hd with hd | hd
    · obtain ⟨bytes, hb⟩ := h.taken d hd ht k hk
      exact hf.isFile hb
    · obtain rfl := List.mem_singleton.1 hd
      obtain rfl : l = k := Option.some.inj (hl.symm.trans hk)
      obtain ⟨bytes, hnode⟩ := hf.node
      exact ⟨bytes, by rw [hnode, if_pos rfl]⟩
  · refine ⟨by rw [hsplit, hl]; exact h.laid.keep hs hne, fun d hd ht' k hk => ?_⟩
    rcases List.mem_append.1 hd with hd | hd
    · exact h.taken d hd ht' k hk
    · exact absurd (List.mem_singleton.1 hd ▸ ht) ht'
  · refine ⟨by rw [hsplit, hl]; simpa using h.laid, fun d hd ht k hk => ?_⟩
    rcases List.mem_append.1 hd with hd | hd
    · exact h.taken d hd ht k hk
    · rw [List.mem_singleton.1 hd, hl] at hk
      cases hk

/-- The place of a page, by the names of its target. -/
theorem placeOf_pageTarget {l : List String} {s : String} (hn : ∀ t ∈ l, IsName t) (hs : IsPlain s)
    (hp : target.Spells (base ++ (l ++ [s]))) (ho : target.IsOpen) : (Page.placeOf target).IsOpen ∧
      (Page.placeOf target).Spells (base ++ Contribution.pageTarget (l ++ [s])) ∧
      (∀ t ∈ Contribution.pageTarget (l ++ [s]), IsName t) ∧
      ∃ k, Contribution.pageTarget (l ++ [s]) = k ++ ["index.html"] := by
  rw [← List.append_assoc] at hp
  obtain ⟨hopen, hspells⟩ := Page.placeOf_spells hp ho hs
  have hindex : IsName "index.html" := by decide
  have hstem := isName_of_not_isDots (fun hc => hs.1 (mem_of_mem_stem hc)) hs.2.2
  rw [stem?, stemChars?, hp.fileChars hs.isName.2.2.1] at hspells
  simp only [Option.map_some, Option.some.injEq] at hspells
  rw [Contribution.pageTarget_append, ← List.append_assoc]
  refine ⟨hopen, hspells, ?_⟩
  split
  · exact ⟨by simpa [or_imp, forall_and] using ⟨hn, hindex⟩, l, rfl⟩
  · exact ⟨by simpa [or_imp, forall_and] using ⟨hn, hstem, hindex⟩,
      l ++ [String.ofList (cutName s.toList).1], by simp⟩

theorem taker?_none (hname : source.fileChars? = some c.name.toList) (ht : c.taker? links = none) :
    ∀ kind ∈ links, source.hasExtension kind.name = false := by
  intro kind hk
  rw [Bool.eq_false_iff, ne_eq, hasExtension_iff hname]
  simpa using List.find?_eq_none.1 ht kind hk

theorem taker?_some {kind : LinkKind} (hname : source.fileChars? = some c.name.toList)
    (ht : c.taker? links = some kind) : kind ∈ links ∧ source.hasExtension kind.name = true := by
  refine ⟨List.mem_of_find?_eq_some ht, ?_⟩
  rw [hasExtension_iff hname]
  simpa using List.find?_some ht

section

variable {l : List String} {s : String} {u : Unit} (hc : Confined base top fs₀ w.files) (hup : ".." ∉ base)
  (hname : source.fileChars? = some c.name.toList) (hl : c.target = l ++ [s]) (hn : ∀ t ∈ l, IsName t)
  (hs : IsPlain s) (hp : target.Spells (base ++ (l ++ [s]))) (ho : target.IsOpen)
  (h : emit options source target w = .ok u w')

include hc hup hname hl hn hs hp ho h

/-- A file that no link takes is copied, or left out if something is there. -/
theorem emit_untaken (ht : c.taker? options.links = none) : EmitEnds options.links top c w.files w'.files := by
  have hns : ∀ t ∈ l ++ [s], IsName t := by
    simpa [or_imp, forall_and] using ⟨hn, hs.isName⟩
  have hne : l ++ [s] ≠ [] := by simp
  have hlay : c.layout options.links = some (l ++ [s]) := by rw [Contribution.layout, ht, hl]
  rcases emit_declined (taker?_none hname ht) h with ⟨hthere, hsame⟩ | ⟨-, hcopy⟩
  · exact .kept _ hlay hne ht hsame (hc.isSome_of_pathExists hns hp ho hthere)
  · exact .filled _ hlay hne (copy_ok hc hup hns hp ho hne hcopy)

theorem emit_page (ht : c.taker? options.links = some .page) :
    EmitEnds options.links top c w.files w'.files := by
  obtain ⟨hk, hext⟩ := taker?_some hname ht
  obtain ⟨applied, w₁, hrun, h⟩ := bind_eq_ok h
  have hlay : c.layout options.links = some (Contribution.pageTarget (l ++ [s])) := by
    rw [Contribution.layout, ht, hl]
  obtain ⟨hopen, hspells, hnames, k, hindex⟩ := placeOf_pageTarget hn hs hp ho
  have hplace : (Page.placeOf target).fileChars? = some "index.html".toList := by
    rw [hindex, ← List.append_assoc] at hspells
    exact hspells.fileChars (by decide)
  obtain ⟨rfl, text, w₂, w₃, u', hread, hwrite, hfiles⟩ := runChain_page hk hext hplace hrun
  cases h
  rw [← hread] at hc ⊢
  rw [hfiles]
  have hne : Contribution.pageTarget (l ++ [s]) ≠ [] := by simp [hindex]
  exact .filled _ hlay hne (writeText_ok hc hup hnames hspells hopen hne hwrite)

/-- A stylesheet is bundled if it is the entry of its directory, and dropped if it is not. -/
theorem emit_stylesheet (hcss : options.links.count .stylesheet ≤ 1)
    (hentry : c.name = Stylesheet.entryName → s = Stylesheet.entryName)
    (ht : c.taker? options.links = some .stylesheet) : EmitEnds options.links top c w.files w'.files := by
  obtain ⟨hk, hext⟩ := taker?_some hname ht
  obtain ⟨applied, w₁, hrun, h⟩ := bind_eq_ok h
  have hfile : target.fileChars? = some s.toList := by
    rw [← List.append_assoc] at hp
    exact hp.fileChars hs.isName.2.2.1
  have hstands : (source.fileName? = some Stylesheet.entryName) = (c.name = Stylesheet.entryName) := by
    simp [fileName?, hname]
  have htarget : source.fileName? = some Stylesheet.entryName →
      target.fileChars? = some Stylesheet.entryName.toList := by
    intro he
    rw [hfile, hentry (hstands ▸ he)]
  obtain ⟨rfl, hwritten⟩ := runChain_stylesheet hk hext hcss htarget hrun
  cases h
  simp only [hstands] at hwritten
  split at hwritten
  · next he =>
    obtain ⟨text, w₂, w₃, u', hread, hwrite, hfiles⟩ := hwritten
    have hlay : c.layout options.links = some (l ++ [s]) := by
      rw [Contribution.layout, ht]
      simp only [he, if_true, hl]
    have hns : ∀ t ∈ l ++ [s], IsName t := by
      simpa [or_imp, forall_and] using ⟨hn, hs.isName⟩
    rw [← hread] at hc ⊢
    rw [hfiles]
    exact .filled _ hlay (by simp) (writeText_ok hc hup hns hp ho (by simp) hwrite)
  · next he =>
    refine .dropped ?_ hwritten
    rw [Contribution.layout, ht]
    simp only [he, if_false]

/-- What emitting a file comes to, if it succeeds. -/
theorem emit_ends (hcss : options.links.count .stylesheet ≤ 1)
    (hentry : c.name = Stylesheet.entryName → s = Stylesheet.entryName) :
    EmitEnds options.links top c w.files w'.files := by
  cases ht : c.taker? options.links with
  | none => exact emit_untaken hc hup hname hl hn hs hp ho h ht
  | some kind =>
      cases kind with
      | page => exact emit_page hc hup hname hl hn hs hp ho h ht
      | stylesheet => exact emit_stylesheet hc hup hname hl hn hs hp ho h hcss hentry ht

end

end SiteTree.Walk
