import SiteTree.Proofs.FileSystem.Inside
import SiteTree.Proofs.FileSystem.Names

/-!
Putting files into a directory with no link in it: the file is there afterwards, in directories that
are made as needed, and nothing else has changed.
-/

namespace SiteTree.FileSystem

open SiteTree.Path

variable {fs fs' fs₀ : FileSystem} {cwd root x loc : Location} {base names : List String} {p source : Path}
  {bytes : ByteArray} {place : Place}

/-- A file has come to a place below the root. No directory was there, and no file on the way. -/
structure Filled (root : Location) (names : List String) (fs fs' : FileSystem) : Prop where
  free : fs.at? (root ++ names) ≠ some .directory
  way : ∀ l, l <+: names → l ≠ names → ∀ bytes, fs.at? (root ++ l) ≠ some (.file bytes)
  node : ∃ bytes, ∀ l, fs'.at? (root ++ l) = if l = names then some (.file bytes)
    else if l <+: names then some .directory else fs.at? (root ++ l)

theorem Filled.isFile (h : Filled root names fs fs') {l : List String}
    (hl : fs.at? (root ++ l) = some (.file bytes)) :
    ∃ bytes', fs'.at? (root ++ l) = some (.file bytes') := by
  obtain ⟨new, hnode⟩ := h.node
  rw [hnode]
  split
  · exact ⟨new, rfl⟩
  · next hne =>
    rw [if_neg fun hpre => h.way l hpre hne bytes hl, hl]
    exact ⟨bytes, rfl⟩

namespace Confined

variable (h : Confined base root fs₀ fs) (hn : ∀ s ∈ names, IsName s) (hp : p.Spells (base ++ names))

include h hn hp

theorem makeDirectories_ok (hup : ".." ∉ base) (hm : fs.makeDirectories cwd p = .ok fs') :
    (∀ l, l <+: names → fs'.at? (root ++ l) = some .directory ∧ ∀ bytes, fs.at? (root ++ l) ≠ some (.file bytes)) ∧
      ∀ x, ¬ x <+: root ++ names → fs'.at? x = fs.at? x := by
  have hups : ".." ∉ base ++ names := fun hc => (List.mem_append.1 hc).elim hup (not_up_of_isName hn)
  have hconf : Confined base root fs₀ fs' := by
    have hleft := h.makeDirectories cwd ⟨names, hn, hp⟩
    rwa [hm] at hleft
  have hmade : fs'.at? (root ++ names) = some .directory ∧
      ∀ x, fs'.at? x = fs.at? x ∨ x <+: root ++ names ∧ fs.at? x = none ∧ fs'.at? x = some .directory := by
    rcases makeDirectories_spelled h.wellFormed cwd hp hups with
      ⟨cause, hc⟩ | ⟨hc, loc, hr⟩ | ⟨files, loc, hc, hmade⟩
    · cases hm.symm.trans hc
    · cases hm.symm.trans hc
      obtain rfl : loc = root ++ names := h.location (Confined.not_empty hp) hn hr.walk_eq
      exact ⟨hr.directory, fun x => .inl rfl⟩
    · cases hm.symm.trans hc
      obtain rfl : loc = root ++ names :=
        hconf.location (Confined.not_empty hp) hn (hmade.leads true).walk_eq
      exact ⟨(hmade.leads true).at?_found, hmade.way⟩
  obtain ⟨hat, hway⟩ := hmade
  refine ⟨fun l hl => ?_, fun x hx => (hway x).resolve_right fun hc => hx hc.1⟩
  have hd : fs'.at? (root ++ l) = some .directory :=
    hconf.wellFormed.directory_above hat ((List.prefix_append_right_inj root).2 hl)
  refine ⟨hd, fun bytes hb => ?_⟩
  rcases hway (root ++ l) with he | ⟨-, hnone, -⟩
  · rw [hd, hb] at he
    cases he
  · rw [hb] at hnone
    cases hnone

theorem write_ok (ho : p.IsOpen) (hw : fs.write cwd p bytes = .ok fs') :
    fs.at? (root ++ names) ≠ some .directory ∧
      ∀ x, fs'.at? x = if x = root ++ names then some (.file bytes) else fs.at? x := by
  obtain ⟨place, hr, rfl, hf⟩ := FileSystem.write_ok ho hw
  rw [hp.resolve_open ho] at hr
  have hloc := h.location (Confined.not_empty hp) hn hr
  obtain ⟨hne, dir, s, hdir, -⟩ := h.wellFormed.parent_of_place (.of_walk hr)
    (fun s hs => not_slash_of_mem_stretches (hp.stretches ▸ hs)) hf
  rw [hloc] at hne ⊢
  refine ⟨hne, fun x => ?_⟩
  split
  · next hx =>
    subst hx
    refine at?_put_self fs _ ?_
    rw [← hloc, hdir]
    simp
  · next hx => exact h.wellFormed.at?_put hne hx

theorem copy_ok (ho : p.IsOpen) (hc : fs.copy cwd source p = .ok fs') :
    fs.at? (root ++ names) ≠ some .directory ∧
      ∃ bytes, ∀ x, fs'.at? x = if x = root ++ names then some (.file bytes) else fs.at? x := by
  obtain ⟨cleared, hw, he⟩ := FileSystem.copy_ok hc
  obtain ⟨hne, hcleared⟩ := h.write_ok hn hp ho hw
  rcases he with rfl | ⟨bytes, hw'⟩
  · exact ⟨hne, _, hcleared⟩
  · obtain ⟨-, hall⟩ := (h.write ⟨names, hn, hp⟩ ho hw).write_ok hn hp ho hw'
    refine ⟨hne, bytes, fun x => ?_⟩
    rw [hall, hcleared]
    split <;> rfl

/-- The bytes are read once the target is empty, so the source is another file. -/
theorem copy_bytes (ho : p.IsOpen) (hs : fs.found cwd source = .ok (loc, .file bytes)) (hloc : ¬ root <+: loc)
    (hat : fs.at? loc = some (.file bytes)) (hc : fs.copy cwd source p = .ok fs') :
    fs'.at? (root ++ names) = some (.file bytes) := by
  rw [FileSystem.copy, hs] at hc
  cases hw : fs.write cwd p .empty with
  | error cause => simp [hw, bind, Except.bind] at hc
  | ok cleared =>
      obtain ⟨-, hcleared⟩ := h.write_ok hn hp ho hw
      have hkept : cleared.at? loc = some (.file bytes) := by
        rw [hcleared, if_neg, hat]
        rintro rfl
        exact hloc (List.prefix_append _ _)
      simp only [hw, bind, Except.bind, hkept] at hc
      obtain ⟨-, hwritten⟩ := (h.write ⟨names, hn, hp⟩ ho hw).write_ok hn hp ho hc
      rw [hwritten, if_pos rfl]

theorem isSome_of_pathExists (ho : p.IsOpen) (he : fs.pathExists cwd p = true) :
    (fs.at? (root ++ names)).isSome := by
  rw [pathExists] at he
  cases hf : fs.found cwd p with
  | error cause => rw [hf] at he; cases he
  | ok there =>
      obtain ⟨loc, node⟩ := there
      have hr := found_eq_ok.1 hf
      rw [hp.resolve_open ho] at hr
      have hloc : loc = root ++ names := h.location (Confined.not_empty hp) hn hr
      rw [← hloc, (Leads.of_walk hr).at?_found]
      rfl

omit hn in
theorem pathExists_of_isSome (ho : p.IsOpen) (hnil : names ≠ []) (hs : (fs.at? (root ++ names)).isSome) :
    fs.pathExists cwd p = true := by
  obtain ⟨node, hnode⟩ := Option.isSome_iff_exists.1 hs
  obtain ⟨m, hm⟩ := h.reaches.walk_below true (Confined.not_empty hp) hnil
  have hleads : fs.Leads true (m + 1) root names (.found (root ++ names) node) :=
    h.wellFormed.leads_down hnode fun target ht => h.linkFree _ target (List.prefix_append _ _) (ht ▸ hnode)
  have hfound : fs.found cwd p = .ok (root ++ names, node) := by
    rw [found_eq_ok, hp.resolve_open ho, hm]
    exact hleads.walk_eq
  rw [pathExists, hfound]

end Confined

end SiteTree.FileSystem

namespace SiteTree.Action

open FileSystem SiteTree.Path

variable {fs₀ : FileSystem} {base names : List String} {root : Location} {p source : Path} {text : String}
  {w w' : World} {u : Unit}

section

variable (hc : Confined base root fs₀ w.files) (hup : ".." ∉ base) (hn : ∀ s ∈ names, IsName s)
  (hp : p.Spells (base ++ names)) (ho : p.IsOpen) (hne : names ≠ [])

include hc hup hn hp hne

/-- What is put at the place once the levels above it are there has filled it. -/
theorem filled_of_makeParent {w₁ : World} (hm : makeParent p w = .ok u w₁) :
    Confined base root fs₀ w₁.files ∧ ∀ fs',
      (w₁.files.at? (root ++ names) ≠ some .directory ∧
        ∃ bytes, ∀ x, fs'.at? x = if x = root ++ names then some (.file bytes) else w₁.files.at? x) →
      Filled root names w.files fs' := by
  obtain ⟨l, s, rfl⟩ := (List.eq_nil_or_concat' names).resolve_left hne
  have hl : ∀ t ∈ l, IsName t := fun t ht => hn t (List.mem_append_left _ ht)
  rw [← List.append_assoc] at hp
  obtain ⟨q, hq, hspells⟩ := hp.parent
  rw [makeParent, hq] at hm
  have hkeep : Confined base root fs₀ ((makeDirectories q).after w).files :=
    makeDirectories_keeps ⟨l, hl, hspells⟩ w hc
  rw [after_ok hm] at hkeep
  refine ⟨hkeep, ?_⟩
  rintro fs' ⟨hfree, bytes, hnode⟩
  obtain ⟨files, hmade, rfl⟩ := changePart_ok hm
  obtain ⟨hdirs, hrest⟩ := hc.makeDirectories_ok hl hspells hup hmade
  have hlast : ∀ k, k <+: l ++ [s] ∧ k ≠ l ++ [s] ↔ k <+: l := by
    intro k
    rw [List.prefix_concat_iff]
    constructor
    · rintro ⟨rfl | hk, hne⟩
      · exact absurd rfl hne
      · exact hk
    · intro hk
      refine ⟨.inr hk, ?_⟩
      rintro rfl
      exact not_append_isPrefix hk
  have hself : files.at? (root ++ (l ++ [s])) = w.files.at? (root ++ (l ++ [s])) :=
    hrest _ fun hpre => not_append_isPrefix ((List.prefix_append_right_inj root).1 hpre)
  refine ⟨hself ▸ hfree, fun k hk hkne => (hdirs k ((hlast k).1 ⟨hk, hkne⟩)).2, bytes, fun k => ?_⟩
  rw [hnode]
  by_cases hk : k = l ++ [s]
  · simp [hk]
  rw [if_neg (by simpa using hk), if_neg hk]
  split
  · next hpre => exact (hdirs k ((hlast k).1 ⟨hpre, hk⟩)).1
  · next hpre =>
    exact hrest _ fun hc => hpre (((List.prefix_append_right_inj root).1 hc).trans (List.prefix_append _ _))

include ho

theorem writeText_ok (h : writeText p text w = .ok u w') : Filled root names w.files w'.files := by
  obtain ⟨u₁, w₁, hm, hw⟩ := bind_eq_ok h
  obtain ⟨hc₁, hfill⟩ := filled_of_makeParent hc hup hn hp hne hm
  obtain ⟨files, hput, rfl⟩ := change_ok hw
  obtain ⟨hfree, hnode⟩ := hc₁.write_ok hn hp ho hput
  exact hfill files ⟨hfree, _, hnode⟩

theorem copy_ok (h : copy source p w = .ok u w') : Filled root names w.files w'.files := by
  obtain ⟨u₁, w₁, hm, hrest⟩ := bind_eq_ok h
  obtain ⟨hc₁, hfill⟩ := filled_of_makeParent hc hup hn hp hne hm
  obtain ⟨u₂, w₂, hd, hw⟩ := bind_eq_ok hrest
  cases hd
  obtain ⟨files, hput, rfl⟩ := change_ok hw
  exact hfill files (hc₁.copy_ok hn hp ho hput)

/-- A file that is outside, wherever the target is, is copied byte for byte. -/
theorem copy_bytes {loc : Location} {bytes : ByteArray} (hs : ∀ w₁ : World, Confined base root fs₀ w₁.files →
      w₁.files.found w₁.cwd source = .ok (loc, .file bytes))
    (hloc : ¬ root <+: loc) (hat : fs₀.at? loc = some (.file bytes)) (h : copy source p w = .ok u w') :
    w'.files.at? (root ++ names) = some (.file bytes) := by
  obtain ⟨u₁, w₁, hm, hrest⟩ := bind_eq_ok h
  obtain ⟨hc₁, -⟩ := filled_of_makeParent hc hup hn hp hne hm
  obtain ⟨u₂, w₂, hd, hw⟩ := bind_eq_ok hrest
  cases hd
  obtain ⟨files, hput, rfl⟩ := change_ok hw
  exact hc₁.copy_bytes hn hp ho (hs w₁ hc₁) hloc ((hc₁.within loc hloc).trans hat) hput

end

end SiteTree.Action
