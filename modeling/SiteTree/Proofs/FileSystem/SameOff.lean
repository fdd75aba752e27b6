import SiteTree.Proofs.Alike
import SiteTree.Proofs.FileSystem.Fresh
import SiteTree.Proofs.FileSystem.Way

/-!
Trees that are the same off some places: directories that are made past those places are made in both or in neither.
-/

namespace SiteTree.FileSystem

open SiteTree.Path

variable {I : Location → Prop} {fs fs' fs₁ fs₁' : FileSystem} {cwd x : Location} {l : List String} {n : Nat} {p q : Path}

/-- Only what is listed in one of the trees has to be compared. -/
theorem sameOff_iff : SameOff I fs fs' ↔ ∀ e ∈ fs.entries ++ fs'.entries, ¬ I e.1 → fs'.at? e.1 = fs.at? e.1 := by
  refine ⟨fun h e _ he => h e.1 he, fun h x hx => ?_⟩
  by_cases hnil : x = []
  · rw [hnil, at?_nil, at?_nil]
  by_cases hsome : (fs.at? x).isSome
  · obtain ⟨e, he, rfl⟩ := mem_of_at?_isSome hnil hsome
    exact h e (List.mem_append_left _ he) hx
  by_cases hsome' : (fs'.at? x).isSome
  · obtain ⟨e, he, rfl⟩ := mem_of_at?_isSome hnil hsome'
    exact h e (List.mem_append_right _ he) hx
  · rw [Option.not_isSome_iff_eq_none] at hsome hsome'
    rw [hsome, hsome']

instance [DecidablePred I] (fs fs' : FileSystem) : Decidable (SameOff I fs fs') := decidable_of_iff' _ sameOff_iff

theorem SameOff.put (h : SameOff I fs fs') (hw : fs.WellFormed) (hw' : fs'.WellFormed)
    (hx : fs.at? x ≠ some .directory) (hx' : fs'.at? x ≠ some .directory) (node : FileNode) :
    SameOff I (fs.put x node) (fs'.put x node) := by
  intro y hy
  by_cases he : y = x
  · subst he
    have hnil : y ≠ [] := by
      rintro rfl
      exact hx rfl
    rw [at?_put_self _ _ hnil, at?_put_self _ _ hnil]
  · rw [hw.at?_put hx he, hw'.at?_put hx' he, h y hy]

/-- Trees that a disk can hold, and that are the same off some places. -/
structure Alike (I : Location → Prop) (fs fs' : FileSystem) : Prop where
  left : fs.WellFormed
  right : fs'.WellFormed
  same : SameOff I fs fs'

theorem Alike.makeDirectory (h : Alike I fs fs') (hp : p.Spells l) (hI : ∀ x ∈ fs.way (maxLinks + 1) [] l, ¬ I x) :
    Likewise Eq (Alike I) (fs.makeDirectory cwd p) (fs'.makeDirectory cwd p) := by
  have hlocate : fs'.locate cwd p = fs.locate cwd p := locate_congr h.same hp hI
  rw [FileSystem.makeDirectory, FileSystem.makeDirectory, hlocate]
  cases hl : fs.locate cwd p with
  | error cause => exact .error rfl
  | ok place =>
      cases place with
      | found loc node => exact .error rfl
      | vacant parent name slashed =>
          have hleads := locate_leads hl
          obtain ⟨hd, -, hnone⟩ := hleads.vacancy
          obtain ⟨hd', -, hnone'⟩ := (locate_leads (hlocate.trans hl)).vacancy
          have hname := hleads.isName fun s => not_slash_of_mem_stretches
          exact .ok ⟨h.left.put hd hname, h.right.put hd' hname,
            h.same.put h.left h.right (by simp [hnone]) (by simp [hnone']) .directory⟩

theorem Alike.isDirectory_eq (h : Alike I fs fs') (hp : p.Spells l) (hI : ∀ x ∈ fs.way (maxLinks + 1) [] l, ¬ I x) :
    fs'.isDirectory cwd p = fs.isDirectory cwd p := by
  rw [Bool.eq_iff_iff, isDirectory_iff hp, isDirectory_iff hp]
  exact exists_congr fun loc => reaches_congr h.same hI

theorem Alike.makeLevel (h : Alike I fs fs') (hp : p.Spells l) (hI : ∀ x ∈ fs.way (maxLinks + 1) [] l, ¬ I x) :
    Likewise (fun e e' => e.1 = e'.1) (Alike I) (FileSystem.makeLevel cwd p fs) (FileSystem.makeLevel cwd p fs') :=
  (h.makeDirectory hp hI).makeLevel (h.isDirectory_eq hp hI) h

/-- The way to what has been made in the end holds the ways to all levels above it. -/
theorem Alike.makeLevels (h : Alike I fs fs') (hp : p.Spells l)
    (hI : ∀ x ∈ (FileSystem.left (FileSystem.makeLevels cwd n p fs)).way (maxLinks + 1) [] l, ¬ I x) :
    Likewise (fun e e' => e.1 = e'.1) (Alike I) (FileSystem.makeLevels cwd n p fs)
      (FileSystem.makeLevels cwd n p fs') := by
  induction n generalizing p l with
  | zero => exact .error rfl
  | succ n ih =>
      have he := hp.isEmpty
      have hstart : ∀ x ∈ fs.way (maxLinks + 1) [] l, ¬ I x :=
        fun x hx => hI x ((makeLevels_grows h.left cwd (n + 1) p).2.way hx)
      have hone : Likewise Eq (Alike I) (fs.makeDirectory cwd p) (fs'.makeDirectory cwd p) := h.makeDirectory hp hstart
      have hmissing := hone.eq_error_iff .missing
      by_cases hm : fs.makeDirectory cwd p = .error .missing
      · obtain ⟨l, s, rfl⟩ := (List.eq_nil_or_concat' l).resolve_left (by
          rintro rfl
          cases (makeDirectory_top hp).symm.trans hm)
        obtain ⟨q, hq, hspells⟩ := hp.parent
        have hl : l.filter (· ≠ "") = l := by rw [← hspells.stretches, filter_stretches]
        rw [makeLevels_above he hm hq] at hI
        rw [makeLevels_above he hm hq, makeLevels_above he (hmissing.2 hm) hq]
        have hwell := (makeLevels_grows h.left cwd n q).1
        have habove := ih (p := q) hspells
        generalize FileSystem.makeLevels cwd n q fs = above at habove hwell hI ⊢
        generalize FileSystem.makeLevels cwd n q fs' = above' at habove ⊢
        have hgrows : (FileSystem.left above).Grows (FileSystem.left (above >>= FileSystem.makeLevel cwd p)) := by
          cases above with
          | error e => exact .refl _
          | ok fs₁ => exact makeLevel_grows hwell cwd p
        have hlast : ∀ x ∈ (FileSystem.left above).way (maxLinks + 1) [] (l ++ [s]), ¬ I x :=
          fun x hx => hI x (hgrows.way hx)
        have hlower : ∀ x ∈ (FileSystem.left above).way (maxLinks + 1) [] l, ¬ I x := by
          intro x hx
          have hlong := way_append (List.cons_ne_nil s []) hx
          rw [hl] at hlong
          exact hlast x hlong
        cases habove hlower with
        | error he => exact .error he
        | ok hT => exact hT.makeLevel hp hlast
      · rw [makeLevels_last he hm, makeLevels_last he (mt hmissing.1 hm)]
        exact h.makeLevel hp hstart

end SiteTree.FileSystem
