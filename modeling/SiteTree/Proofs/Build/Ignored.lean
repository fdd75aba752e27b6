import SiteTree.Proofs.Build.Own

/-!
What is ignored does not show: clean builds in trees that differ only in ignored entries and in what these hold end
alike, as long as nothing that is not ignored leads there.
-/

namespace SiteTree.Build

open SiteTree.Action FileSystem SiteTree.Path Walk

variable {I : Location → Prop} {options : Options} {plan plan' : Plan} {start : FileSystem} {w w' w₁ w₁' : World}
  {l rel : List String} {loc dir x y : Location} {name : String} {p : Path}

/-- A place of an ignored entry of the source, or below one. -/
def Ignored (plan : Plan) (x : Location) : Prop :=
  ∃ k, k ≠ [] ∧ settled plan.source ++ k <+: x ∧ plan.ignore.hides ⟨"/".intercalate k⟩ = true

theorem ignored_iff : Ignored plan x ↔ settled plan.source <+: x ∧
    ∃ k ∈ (x.drop (settled plan.source).length).inits, k ≠ [] ∧ plan.ignore.hides ⟨"/".intercalate k⟩ = true := by
  constructor
  · rintro ⟨k, hk, ⟨r, rfl⟩, hhides⟩
    rw [List.append_assoc, List.drop_left]
    exact ⟨List.prefix_append _ _, k, (List.mem_inits _ _).2 (List.prefix_append k r), hk, hhides⟩
  · rintro ⟨⟨rel, rfl⟩, k, hmem, hk, hhides⟩
    rw [List.drop_left, List.mem_inits] at hmem
    exact ⟨k, hk, (List.prefix_append_right_inj _).2 hmem, hhides⟩

instance (plan : Plan) : DecidablePred (Ignored plan) := fun _ => decidable_of_iff' _ ignored_iff

/-- The checks of a build come to this source, this output and this filter. -/
structure Settles (options : Options) (plan : Plan) (w : World) : Prop where
  wellFormed : w.files.WellFormed
  cwd : ∀ s ∈ w.cwd, IsName s
  source : w.files.canonical w.cwd options.sourceRoot = .ok plan.source
  output : outputLocation w.files w.cwd options.outputRoot = .ok plan.output
  filter : ∃ w₁, filterFor plan.source options.ignore w = .ok plan.ignore w₁

/-- Where the source is a directory in both trees or in neither, both builds come to the plan, or neither does. -/
theorem Settles.validate_alike (h : Settles options plan w) (h' : Settles options plan w')
    (hsame : w'.files.at? (settled plan.source) = w.files.at? (settled plan.source)) :
    EndAlike True (fun _ _ => True) Eq (validate options w) (validate options w') := by
  obtain ⟨loc, hden⟩ := canonical_denotes h.wellFormed h.source
  obtain ⟨loc', hden'⟩ := canonical_denotes h'.wellFormed h'.source
  obtain rfl : loc' = loc := hden'.settled.symm.trans hden.settled
  rw [hden.settled] at hsame
  refine Build.validate_alike (h'.source.trans h.source.symm) (h'.output.trans h.output.symm) (fun s hs => ?_)
    fun s p hs _ _ _ => ?_
  · obtain rfl : plan.source = s := Except.ok.inj (h.source.symm.trans hs)
    rw [Bool.eq_iff_iff, hden.isDirectory, hden'.isDirectory, hsame]
  · obtain rfl : plan.source = s := Except.ok.inj (h.source.symm.trans hs)
    obtain ⟨w₁, hfilter⟩ := h.filter
    obtain ⟨w₁', hfilter'⟩ := h'.filter
    rw [hfilter, hfilter']
    exact .ok rfl trivial

theorem Settles.placed (h : Settles options plan w) (hup : .up ∉ plan.output.components)
    (hv : validate options w = .ok plan w₁) : ∃ l name, Placed w.files plan.output l name := by
  obtain ⟨-, -, -, hstarts⟩ := validate_ok hv
  refine placed_of_spelled h.wellFormed h.cwd (fun hspells => ?_) h.output fun hspells => ?_
  · rwa [up_mem_components, hspells.stretches] at hup
  · obtain ⟨loc, hs⟩ := canonical_spells h.wellFormed h.source
    rw [(hs.startsWith_iff hspells).2 List.nil_prefix] at hstarts
    cases hstarts

end SiteTree.Build
