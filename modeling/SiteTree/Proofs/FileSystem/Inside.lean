import SiteTree.Proofs.Action
import SiteTree.Proofs.Page.Place

/-!
Actions on files inside a directory keep all changes confined to it.
-/

namespace SiteTree.Action

open FileSystem SiteTree.Path

variable {fs₀ : FileSystem} {base names : List String} {root : Location} {p q source : Path}
    {s : String} {w : World}

/-- A path to a name below the directory that the stretches lead to. -/
def Inside (base : List String) (p : Path) : Prop :=
  p.IsOpen ∧ ∃ names s, (∀ t ∈ names, IsName t) ∧ IsName s ∧ p.Spells (base ++ names ++ [s])

theorem Inside.below (h : Inside base p) : Below base p := by
  obtain ⟨-, names, s, hn, hs, hp⟩ := h
  refine ⟨names ++ [s], fun t ht => ?_, by rwa [← List.append_assoc]⟩
  rcases List.mem_append.1 ht with ht | ht
  · exact hn t ht
  · exact List.mem_singleton.1 ht ▸ hs

theorem Inside.parent (h : Inside base p) : ∃ q, p.parent? = some q ∧ Below base q := by
  obtain ⟨-, names, s, hn, -, hp⟩ := h
  obtain ⟨q, hq, hspells⟩ := hp.parent
  exact ⟨q, hq, names, hn, hspells⟩

theorem inside_child (h : Below base p) (hs : IsName s) : Inside base (p.child s) := by
  obtain ⟨names, hn, hp⟩ := h
  obtain ⟨hspells, hopen⟩ := hp.child hs
  exact ⟨hopen, names, s, hn, hs, hspells⟩

/-- What takes the place of the last name stays inside. -/
theorem Inside.withFileName (h : Inside base p) (hs : IsName s) : Inside base (p.withFileName s) := by
  obtain ⟨-, names, t, hn, ht, hspells⟩ := h
  obtain ⟨hspells', hopen⟩ := hspells.withFileName ht.2.2.1 hs
  exact ⟨hopen, names, s, hn, hs, hspells'⟩

theorem makeDirectories_keeps (h : Below base p) : Keeps (Confined base root fs₀) (makeDirectories p) := by
  intro w hw
  rw [makeDirectories, changePart_files]
  exact hw.makeDirectories w.cwd h

theorem makeParent_keeps (h : Inside base p) : Keeps (Confined base root fs₀) (makeParent p) := by
  obtain ⟨q, hq, hb⟩ := h.parent
  rw [makeParent, hq]
  exact makeDirectories_keeps hb

theorem writeBytes_keeps (h : Inside base p) (bytes : ByteArray) :
    Keeps (Confined base root fs₀) (writeBytes p bytes) :=
  fun _ hw => change_keeps hw fun _ hfs => hw.write h.below h.1 hfs

theorem writeText_keeps (h : Inside base p) (text : String) :
    Keeps (Confined base root fs₀) (writeText p text) :=
  (makeParent_keeps h).bind fun _ => writeBytes_keeps h _

theorem copy_keeps (h : Inside base p) (source : Path) : Keeps (Confined base root fs₀) (copy source p) :=
  (makeParent_keeps h).bind fun _ => (Keeps.debug _ _).bind fun _ _ hw =>
    change_keeps hw fun _ hfs => hw.copy h.below h.1 hfs

/-- A target of the walk: inside the directory, under a plain name. -/
def IsTarget (base : List String) (p : Path) : Prop :=
  p.IsOpen ∧ ∃ names s, (∀ t ∈ names, IsName t) ∧ IsPlain s ∧ p.Spells (base ++ names ++ [s])

theorem IsTarget.inside (h : IsTarget base p) : Inside base p := by
  obtain ⟨ho, names, s, hn, hs, hp⟩ := h
  exact ⟨ho, names, s, hn, hs.isName, hp⟩

theorem isTarget_child (h : Below base p) (hs : IsPlain s) : IsTarget base (p.child s) := by
  obtain ⟨names, hn, hp⟩ := h
  obtain ⟨hspells, hopen⟩ := hp.child hs.isName
  exact ⟨hopen, names, s, hn, hs, hspells⟩

theorem IsTarget.placeOf (h : IsTarget base p) : IsTarget base (Page.placeOf p) := by
  obtain ⟨ho, names, s, hn, hs, hp⟩ := h
  have hindex : IsPlain "index.html" := by decide
  obtain ⟨hopen, hspells⟩ := Page.placeOf_spells hp ho hs
  split at hspells
  · exact ⟨hopen, names, _, hn, hindex, hspells⟩
  · have hstem := isName_of_not_isDots (fun hc => hs.1 (mem_of_mem_stem hc)) hs.2.2
    refine ⟨hopen, names ++ [String.ofList (cutName s.toList).1], "index.html", fun t ht => ?_,
      hindex, by simpa using hspells⟩
    rcases List.mem_append.1 ht with ht | ht
    · exact hn t ht
    · exact List.mem_singleton.1 ht ▸ hstem

end SiteTree.Action
