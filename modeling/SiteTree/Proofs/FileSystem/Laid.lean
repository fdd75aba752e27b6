import SiteTree.Proofs.FileSystem.Filled

/-!
A directory that is known by the files that have been put into it, one after another.
-/

namespace SiteTree.FileSystem

variable {fs fs' : FileSystem} {root : Location} {l names : List String} {places : List (List String)}

/-- Below the root there are the files of these places, the directories on the way to them, and
nothing else. A place that is on the way to another one is a directory. -/
structure Laid (root : Location) (places : List (List String)) (fs : FileSystem) : Prop where
  file : ∀ l, (∃ bytes, fs.at? (root ++ l) = some (.file bytes)) ↔ l ∈ places ∧ ∀ k ∈ places, l <+: k → k = l
  directory : ∀ l, fs.at? (root ++ l) = some .directory ↔ l = [] ∨ ∃ k ∈ places, l <+: k ∧ k ≠ l
  link : ∀ l target, fs.at? (root ++ l) ≠ some (.link target)

namespace Laid

theorem start (hd : fs.at? root = some .directory) (hnone : ∀ l, l ≠ [] → fs.at? (root ++ l) = none) :
    Laid root [] fs := by
  refine ⟨fun l => ?_, fun l => ?_, fun l target => ?_⟩ <;> by_cases hl : l = [] <;> simp [hl, hd, hnone]

/-- What is below another directory is the same. -/
theorem moved {root' : Location} (h : Laid root places fs) (hm : ∀ l, fs'.at? (root' ++ l) = fs.at? (root ++ l)) :
    Laid root' places fs' :=
  ⟨fun l => by rw [hm, h.file], fun l => by rw [hm, h.directory],
    fun l target => by rw [hm]; exact h.link l target⟩

/-- At every place there is a file or, on the way to another one, a directory. -/
theorem standing (h : Laid root places fs) (hl : l ∈ places) : (fs.at? (root ++ l)).isSome := by
  by_cases hbelow : ∃ k ∈ places, l <+: k ∧ k ≠ l
  · rw [(h.directory l).2 (.inr hbelow)]
    rfl
  · have hall : ∀ k ∈ places, l <+: k → k = l := fun k hk hpre => by
      by_contra hne
      exact hbelow ⟨k, hk, hpre, hne⟩
    obtain ⟨bytes, hb⟩ := (h.file l).2 ⟨hl, hall⟩
    rw [hb]
    rfl

/-- A file that has come to a place is the file of that place. -/
theorem fill (h : Laid root places fs) (hf : Filled root names fs fs') (hne : names ≠ []) :
    Laid root (places ++ [names]) fs' := by
  obtain ⟨new, hnode⟩ := hf.node
  have hbelow : ∀ k ∈ places, names <+: k → k = names := by
    intro k hk hpre
    by_contra hkn
    exact hf.free ((h.directory names).2 (.inr ⟨k, hk, hpre, hkn⟩))
  refine ⟨fun l => ?_, fun l => ?_, fun l target => ?_⟩
  · rw [hnode, List.forall_mem_append, List.forall_mem_singleton, List.mem_append, List.mem_singleton]
    by_cases hl : l = names
    · subst hl
      simpa using hbelow
    by_cases hpre : l <+: names
    · simp [hl, hpre, Ne.symm hl]
    · simp [hl, hpre, h.file]
  · rw [hnode]
    by_cases hl : l = names
    · subst hl
      simpa [hne] using hbelow
    by_cases hpre : l <+: names
    · simp [hl, hpre, Ne.symm hl]
    · simp [hl, hpre, h.directory]
  · rw [hnode]
    split
    · simp
    · split
      · simp
      · exact h.link l target

/-- A place at which something stands already adds nothing. -/
theorem keep (h : Laid root places fs) (hs : (fs.at? (root ++ names)).isSome) (hne : names ≠ []) :
    Laid root (places ++ [names]) fs := by
  have hway : ∃ k ∈ places, names <+: k := by
    obtain ⟨node, hnode⟩ := Option.isSome_iff_exists.1 hs
    cases node with
    | file bytes => exact ⟨names, ((h.file names).1 ⟨bytes, hnode⟩).1, List.prefix_rfl⟩
    | directory =>
        obtain ⟨k, hk, hpre, -⟩ := ((h.directory names).1 hnode).resolve_left hne
        exact ⟨k, hk, hpre⟩
    | link target => exact absurd hnode (h.link names target)
  obtain ⟨k, hk, hkn⟩ := hway
  refine ⟨fun l => ?_, fun l => ?_, h.link⟩
  · rw [h.file]
    constructor
    · rintro ⟨hl, hall⟩
      refine ⟨List.mem_append_left _ hl, fun m hm hpre => ?_⟩
      rcases List.mem_append.1 hm with hm | hm
      · exact hall m hm hpre
      · obtain rfl := List.mem_singleton.1 hm
        obtain rfl := hall k hk (hpre.trans hkn)
        exact hkn.eq_of_length_le hpre.length_le
    · rintro ⟨hl, hall⟩
      have hall' : ∀ m ∈ places, l <+: m → m = l := fun m hm => hall m (List.mem_append_left _ hm)
      refine ⟨?_, hall'⟩
      rcases List.mem_append.1 hl with hl | hl
      · exact hl
      · obtain rfl := List.mem_singleton.1 hl
        exact hall' k hk hkn ▸ hk
  · rw [h.directory]
    refine or_congr_right ⟨fun ⟨m, hm, hpre⟩ => ⟨m, List.mem_append_left _ hm, hpre⟩, ?_⟩
    rintro ⟨m, hm, hpre, hml⟩
    rcases List.mem_append.1 hm with hm | hm
    · exact ⟨m, hm, hpre, hml⟩
    · obtain rfl := List.mem_singleton.1 hm
      refine ⟨k, hk, hpre.trans hkn, ?_⟩
      rintro rfl
      exact hml (hkn.eq_of_length_le hpre.length_le)

end Laid

end SiteTree.FileSystem
