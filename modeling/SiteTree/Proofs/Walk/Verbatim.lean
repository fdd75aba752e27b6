import SiteTree.Proofs.Walk.Setup

/-!
A walk without links copies files. What comes first to a target stays there: every file that the walk has
made is a copy of the first one that has its place for a target.
-/

namespace SiteTree.Walk

open SiteTree.Action FileSystem EntryName SiteTree.Path

variable {files fs fs' : FileSystem} {top : Location} {found : List Contribution} {c : Contribution}
  {bytes : ByteArray} {options : Options} {dest : Path} {w w' w₁ : World}

/-- Every file has the bytes of the first file of the source that has its place for a target. -/
def FirstCopied (files : FileSystem) (top : Location) (found : List Contribution) (fs : FileSystem) : Prop :=
  ∀ l bytes, fs.at? (top ++ l) = some (.file bytes) →
    ∃ c, found.find? (·.target = l) = some c ∧ files.at? c.source = some (.file bytes)

namespace FirstCopied

theorem moved {top' : Location} (h : FirstCopied files top found fs)
    (hm : ∀ l, fs'.at? (top' ++ l) = fs.at? (top ++ l)) : FirstCopied files top' found fs' :=
  fun l bytes hl => h l bytes (by rwa [← hm])

/-- A later file does not change which one is the first. -/
theorem keep (h : FirstCopied files top found fs) (c : Contribution) : FirstCopied files top (found ++ [c]) fs := by
  intro l bytes hl
  obtain ⟨d, hd, hs⟩ := h l bytes hl
  exact ⟨d, by rw [List.find?_append, hd]; rfl, hs⟩

theorem fill (h : FirstCopied files top found fs) (hf : Filled top c.target fs fs')
    (hnone : found.find? (·.target = c.target) = none) (hb : fs'.at? (top ++ c.target) = some (.file bytes))
    (hs : files.at? c.source = some (.file bytes)) : FirstCopied files top (found ++ [c]) fs' := by
  obtain ⟨new, hnode⟩ := hf.node
  intro l bytes' hl
  by_cases hlc : l = c.target
  · subst hlc
    obtain rfl : bytes = bytes' := by simpa [hb] using hl
    exact ⟨c, by rw [List.find?_append, hnone]; simp, hs⟩
  · rw [hnode, if_neg hlc] at hl
    split at hl
    · cases hl
    · exact h.keep c l bytes' hl

end FirstCopied

namespace Setup

variable {S : Setup} {fits : String → Prop} {rel names : List String} {name : String} {e : Expansion}

/-- The source of an emission is read as it was before the walk. -/
theorem Emits.source_found (h : S.Emits fits options rel names dest name e w w')
    (hat : S.files.at? (S.loc ++ (rel ++ [name])) = some (.file bytes)) (hc : Confined S.base S.top S.files w₁.files) :
    w₁.files.found w₁.cwd (S.entryOf rel name).path = .ok (S.loc ++ (rel ++ [name]), .file bytes) := by
  obtain ⟨-, hleads⟩ := h.enters.leadsTo_now hc
  have hnow : w₁.files.at? (S.loc ++ rel ++ [name]) = some (.file bytes) := by
    rw [List.append_assoc, hc.within _ h.off, hat]
  rw [entryOf, descend_append, hleads.found_child h.isName hnow rfl, List.append_assoc]

/-- Every emission adds its file to the layout, or finds its place taken. -/
def copying (S : Setup) (hlinks : S.links = []) : S.Keeping where
  fits := IsName
  holds found fs := Laid S.top (found.map (·.target)) fs ∧ FirstCopied S.files S.top found fs
  isName := id
  emits := by
    intro options rel names dest name e found w w' h hc hfound
    obtain ⟨hlaid, hfirst⟩ := hfound
    obtain ⟨bytes, hat⟩ := h.file
    obtain ⟨hspells, hopen⟩ := h.enters.spells.child h.fits
    have hinside : Inside S.base (dest.child e.name) := ⟨hopen, names, e.name, h.enters.names, h.fits, by
      rwa [List.append_assoc] at hspells ⊢⟩
    rw [List.append_assoc] at hspells
    have hn : ∀ s ∈ names ++ [e.name], IsName s := by
      simpa [or_imp, forall_and] using ⟨h.enters.names, h.fits⟩
    have hnil : names ++ [e.name] ≠ [] := by simp
    rw [List.map_append, List.map_singleton]
    have hnolinks : options.links = [] := h.enters.links.trans hlinks
    rcases emit_declined (by simp [hnolinks]) h.run with ⟨hthere, hsame⟩ | ⟨hfree, hcopy⟩
    · rw [hsame]
      exact ⟨hc, hlaid.keep (hc.isSome_of_pathExists hn hspells hopen hthere) hnil, hfirst.keep _⟩
    · have hkeep := copy_keeps hinside (S.entryOf rel name).path w hc
      rw [after_ok hcopy] at hkeep
      have hfilled := copy_ok hc S.noUp hn hspells hopen hnil hcopy
      have hbytes := copy_bytes hc S.noUp hn hspells hopen hnil (fun w₁ hc₁ => h.source_found hat hc₁) h.off hat hcopy
      -- Where a target of the files so far is, something stands, and then nothing is copied.
      have hnone : found.find? (·.target = names ++ [e.name]) = none := by
        rw [List.find?_eq_none]
        intro d hd
        rw [decide_eq_true_eq]
        intro htarget
        have hstands := hlaid.standing (l := names ++ [e.name]) (htarget ▸ List.mem_map_of_mem hd)
        rw [hc.pathExists_of_isSome hspells hopen hnil hstands] at hfree
        cases hfree
      exact ⟨hkeep, hlaid.fill hfilled hnil, hfirst.fill hfilled hnone hbytes hat⟩

end Setup

end SiteTree.Walk
