import Mathlib.Data.List.Pairwise
import SiteTree.Proofs.FileSystem.Tree

/-!
What a directory lists: its names in ascending order, each once, so that a listing is settled by
the names that are in it.
-/

namespace SiteTree.FileSystem

variable {fs fs' : FileSystem} {loc : Location} {a n : String} {l m : List String}

theorem lt_of_not_lt_of_ne {s t : String} (h : ¬ s < t) (hne : s ≠ t) : t < s := by
  by_contra hc
  exact hne (String.le_antisymm (String.not_lt.1 hc) (String.not_lt.1 h))

theorem insertName_sorted (h : l.Pairwise (· < ·)) : (insertName a l).Pairwise (· < ·) := by
  induction l with
  | nil => simp [insertName]
  | cons b l ih =>
      obtain ⟨hb, hl⟩ := List.pairwise_cons.1 h
      rw [insertName]
      split
      · exact h
      · next hne =>
        split
        · next hlt =>
          refine List.pairwise_cons.2 ⟨fun c hc => ?_, h⟩
          rcases List.mem_cons.1 hc with rfl | hc
          · exact hlt
          · exact String.lt_trans hlt (hb c hc)
        · next hlt =>
          refine List.pairwise_cons.2 ⟨fun c hc => ?_, ih hl⟩
          rcases (mem_insertName c a l).1 hc with rfl | hc
          · exact lt_of_not_lt_of_ne hlt hne
          · exact hb c hc

theorem children_sorted (fs : FileSystem) (loc : Location) : (fs.children loc).Pairwise (· < ·) := by
  rw [children]
  induction fs.entries.filterMap (childName? loc) with
  | nil => exact List.Pairwise.nil
  | cons a l ih => exact insertName_sorted ih

theorem sorted_nodup (h : l.Pairwise (· < ·)) : l.Nodup := by
  refine List.Pairwise.imp (fun {a b} hab => ?_) h
  rintro rfl
  exact String.lt_irrefl a hab

theorem sorted_ext (hl : l.Pairwise (· < ·)) (hm : m.Pairwise (· < ·)) (h : ∀ n, n ∈ l ↔ n ∈ m) : l = m := by
  refine List.Perm.eq_of_pairwise (fun a b _ _ hab hba => ?_) hl hm ?_
  · exact absurd (String.lt_trans hab hba) (String.lt_irrefl a)
  · exact (List.perm_ext_iff_of_nodup (sorted_nodup hl) (sorted_nodup hm)).2 h

theorem children_congr {loc' : Location} (h : ∀ n, (fs.at? (loc ++ [n])).isSome ↔ (fs'.at? (loc' ++ [n])).isSome) :
    fs.children loc = fs'.children loc' :=
  sorted_ext (children_sorted fs loc) (children_sorted fs' loc') fun n => by
    rw [mem_children, mem_children, h n]

end SiteTree.FileSystem
