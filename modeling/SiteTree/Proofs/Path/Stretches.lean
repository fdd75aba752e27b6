import SiteTree.Proofs.FileSystem.Leads
import SiteTree.Proofs.Text.Split

/-!
What the text of a path says: its stretches between slashes, and what its parts, its parent and
its children make of them.
-/

namespace SiteTree.Path

open Text

variable {p : Path} {s : String} {a b : List Char} {body : List (List Char)}

def solid (body : List (List Char)) : List String := (body.filter (!·.isEmpty)).map String.ofList

/-- The stretches of a text that are not empty. -/
def stretches (s : List Char) : List String := solid (split '/' s)

@[simp] theorem solid_append (b c : List (List Char)) : solid (b ++ c) = solid b ++ solid c := by
  simp [solid]

theorem solid_singleton (hs : s ≠ "") : solid [s.toList] = [s] := by
  simp [solid, hs]

@[simp] theorem solid_nil : solid [[]] = [] := rfl

theorem stretches_append (a b : List Char) : stretches (a ++ '/' :: b) = stretches a ++ stretches b := by
  rw [stretches, split_append, solid_append]
  rfl

@[simp] theorem stretches_nil : stretches [] = [] := rfl

@[simp] theorem stretches_slash (b : List Char) : stretches ('/' :: b) = stretches b :=
  stretches_append [] b

theorem stretches_toList (hne : s ≠ "") (h : '/' ∉ s.toList) : stretches s.toList = [s] := by
  rw [stretches, split_of_not_mem h, solid_singleton hne]

theorem ne_empty_of_mem_stretches (h : s ∈ stretches a) : s ≠ "" := by
  obtain ⟨t, ht, rfl⟩ := List.mem_map.1 h
  have hn := (List.mem_filter.1 ht).2
  intro he
  have : t = [] := by simpa using congrArg String.toList he
  simp [this] at hn

theorem not_slash_of_mem_stretches (h : s ∈ stretches a) : '/' ∉ s.toList := by
  obtain ⟨t, ht, rfl⟩ := List.mem_map.1 h
  simpa using not_mem_of_mem_split (List.mem_filter.1 ht).1

theorem solid_glue (h : ∀ t ∈ body, '/' ∉ t) : stretches (glue '/' body) = solid body := by
  by_cases hb : body = []
  · subst hb; rfl
  · rw [stretches, split_glue hb h]

theorem filter_stretches (a : List Char) : (stretches a).filter (· ≠ "") = stretches a :=
  List.filter_eq_self.2 fun _ h => by simpa using ne_empty_of_mem_stretches h

theorem stretches_of_not_mem (hne : a ≠ []) (h : '/' ∉ a) : stretches a = [String.ofList a] := by
  have hs : String.ofList a ≠ "" := fun he => hne (by simpa using congrArg String.toList he)
  simpa using stretches_toList hs (by simpa using h)

theorem steps_ne_nil (a : List Char) : FileSystem.steps a ≠ [] := by
  rw [FileSystem.steps]
  split <;> simp

theorem steps_eq (a : List Char) : FileSystem.steps a = if a = [] ∨ a.getLast? = some '/' then
    stretches a ++ [""] else stretches a := by
  by_cases hs : '/' ∈ a
  · obtain ⟨u, v, rfl, hv⟩ := exists_splitLast hs
    have hsteps : FileSystem.steps (u ++ '/' :: v) = stretches u ++ [String.ofList v] := by
      rw [FileSystem.steps, splitLast?_append u hv]
      rfl
    by_cases hv' : v = []
    · subst hv'
      simp [hsteps, stretches_append]
    · have hl : v.getLast hv' ≠ '/' := fun h => hv (h ▸ List.getLast_mem hv')
      simp [hsteps, stretches_append, stretches_of_not_mem hv' hv, List.getLast?_append, List.getLast?_cons,
        List.getLast?_eq_some_getLast hv', hl]
  · rw [FileSystem.steps, splitLast?_of_not_mem hs]
    by_cases ha : a = []
    · subst ha; rfl
    · have hl : a.getLast? ≠ some '/' := fun h => hs (List.mem_of_getLast? h)
      simp [ha, hl, stretches_of_not_mem ha hs]

theorem filter_steps (a : List Char) : (FileSystem.steps a).filter (· ≠ "") = stretches a := by
  rw [steps_eq]
  split
  · rw [List.filter_append, filter_stretches]; simp
  · exact filter_stretches a

theorem target_fst (p : Path) : (FileSystem.target p).1 = stretches p.text.toList := filter_steps _

theorem not_slash_of_mem_steps (h : s ∈ FileSystem.steps a) : '/' ∉ s.toList := by
  rw [steps_eq] at h
  split at h
  · rcases List.mem_append.1 h with h | h
    · exact not_slash_of_mem_stretches h
    · obtain rfl : s = "" := by simpa using h
      simp
  · exact not_slash_of_mem_stretches h

end SiteTree.Path
