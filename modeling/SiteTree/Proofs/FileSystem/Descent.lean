import SiteTree.Proofs.FileSystem.Confined
import SiteTree.Proofs.Path.Descent

/-!
Directories that a path of any form leads to, and what the paths of their children denote.
-/

namespace SiteTree.FileSystem

open SiteTree.Path

variable {fs fs' : FileSystem} {cwd loc x : Location} {p : Path} {s : String} {l rel : List String} {m n : Nat}
  {node : FileNode} {bytes : ByteArray}

/-- The path leads to the directory, through a link at the end too. -/
def LeadsTo (fs : FileSystem) (cwd : Location) (p : Path) (loc : Location) : Prop :=
  p.text ≠ "" ∧ fs.Leads true (maxLinks + 1) (startOf cwd p.text.toList) (stretches p.text.toList)
    (.found loc .directory)

theorem isEmpty_eq_false (hp : p.text ≠ "") : p.isEmpty = false := by simpa [Path.isEmpty] using hp

theorem walk_filler (hs : s = "" ∨ s = ".") (hd : fs.at? loc = some .directory) :
    fs.walk true (m + 1) loc [s] = .ok (.found loc .directory) :=
  Leads.walk_eq (.skip hd hs (.stop hd))

theorem Leads.drop_filler (hs : s = "" ∨ s = ".") (hl : l.filter (· ≠ "") = l)
    (h : fs.Leads true n x (l ++ [s]) (.found loc .directory)) : fs.Leads true n x l (.found loc .directory) := by
  obtain ⟨loc', hl'⟩ := h.walk_split (.inr ⟨_, _, rfl⟩)
  obtain ⟨m, hm⟩ := hl'.walk_append true (List.cons_ne_nil s [])
  rw [hl, h.walk_eq, walk_filler hs hl'.at?_found] at hm
  cases hm
  exact hl'

theorem leadsTo_iff : fs.LeadsTo cwd p loc ↔ fs.found cwd p = .ok (loc, .directory) := by
  rw [found_eq_ok, LeadsTo]
  by_cases hp : p.text = ""
  · simp [hp, resolve, Path.isEmpty]
  rw [resolve, isEmpty_eq_false hp, if_neg Bool.false_ne_true]
  constructor
  · rintro ⟨-, h⟩
    rw [← filter_steps] at h
    exact h.steps.walk_eq
  · intro h
    have hl := Leads.of_walk h
    rw [steps_eq] at hl
    refine ⟨hp, ?_⟩
    split at hl
    · exact hl.drop_filler (.inl rfl) (filter_stretches _)
    · exact hl

/-- A directory is found with no link at the end to follow, or with one. -/
theorem found_of_resolve (h : fs.resolve cwd false p = .ok (.found loc .directory)) :
    fs.found cwd p = .ok (loc, .directory) := by
  rw [found_eq_ok]
  rw [resolve] at h ⊢
  split at h
  · cases h
  · next hp =>
    rw [if_neg hp]
    exact (Leads.of_walk h).followed.walk_eq

theorem resolve_mono {follow : Bool} (h : fs.resolve cwd follow p = .ok (.found loc .directory))
    (ho : fs.Outgrows fs') : fs'.resolve cwd follow p = .ok (.found loc .directory) := by
  rw [resolve] at h ⊢
  split at h
  · cases h
  · next hp =>
    rw [if_neg hp]
    exact ((Leads.of_walk h).mono ho).walk_eq

theorem walk_name (hd : fs.at? loc = some .directory) (hs : IsStep s)
    (hlink : ∀ target, fs.at? (loc ++ [s]) ≠ some (.link target)) (follow : Bool) :
    fs.walk follow (n + 1) loc [s] = .ok (fs.placeIn loc s) := by
  rw [placeIn]
  refine Leads.walk_eq ?_
  cases hn : fs.at? (loc ++ [s]) with
  | none => exact .vacant hd hs hn
  | some node =>
      cases node with
      | link target => exact absurd hn (hlink target)
      | file bytes => exact .enter hd hs hn (by simp) (.stop hn)
      | directory => exact .enter hd hs hn (by simp) (.stop hn)

theorem steps_of_isOpen (ho : p.IsOpen) (hp : p.text ≠ "") : steps p.text.toList = stretches p.text.toList := by
  rw [steps_eq, if_neg]
  simpa [hp, Path.IsOpen] using ho

namespace LeadsTo

theorem directory (h : fs.LeadsTo cwd p loc) : fs.at? loc = some .directory := h.2.at?_found

theorem list (h : fs.LeadsTo cwd p loc) : fs.list cwd p = .ok (fs.children loc) := by
  rw [FileSystem.list, leadsTo_iff.1 h]
  rfl

theorem mono (h : fs.LeadsTo cwd p loc) (ho : fs.Outgrows fs') : fs'.LeadsTo cwd p loc := ⟨h.1, h.2.mono ho⟩

theorem startOf_child (h : fs.LeadsTo cwd p loc) (hs : IsName s) :
    startOf cwd (p.child s).text.toList = startOf cwd p.text.toList := by
  rw [startOf, startOf, head?_child hs h.1]

theorem walk_child (h : fs.LeadsTo cwd p loc) (hs : IsName s) (follow : Bool) : ∃ m,
    fs.resolveSteps follow (startOf cwd (p.child s).text.toList) (stretches (p.child s).text.toList) =
      fs.walk follow (m + 1) loc [s] := by
  obtain ⟨m, hm⟩ := h.2.walk_append follow (List.cons_ne_nil s [])
  rw [filter_stretches] at hm
  exact ⟨m, by rw [resolveSteps, h.startOf_child hs, stretches_child hs h.1, hm]⟩

theorem locate_child (h : fs.LeadsTo cwd p loc) (hs : IsName s) :
    fs.locate cwd (p.child s) = .ok (fs.placeIn loc s) := by
  obtain ⟨m, hm⟩ := h.walk_child hs false
  rw [locate, isEmpty_eq_false (child_ne_empty hs h.1), if_neg Bool.false_ne_true, target_fst, hm,
    walk_step h.directory hs.isStep]

/-- A name that is no link denotes what stands under it in the directory. -/
theorem resolve_child (h : fs.LeadsTo cwd p loc) (hs : IsName s)
    (hlink : ∀ target, fs.at? (loc ++ [s]) ≠ some (.link target)) (follow : Bool) :
    fs.resolve cwd follow (p.child s) = .ok (fs.placeIn loc s) := by
  have hne := child_ne_empty hs h.1
  obtain ⟨m, hm⟩ := h.walk_child hs follow
  rw [resolve, isEmpty_eq_false hne, if_neg Bool.false_ne_true, steps_of_isOpen (isOpen_child hs h.1) hne, hm,
    walk_name h.directory hs.isStep hlink]

theorem found_child (h : fs.LeadsTo cwd p loc) (hs : IsName s) (hat : fs.at? (loc ++ [s]) = some node)
    (hlink : node.isLink = false) : fs.found cwd (p.child s) = .ok (loc ++ [s], node) := by
  rw [found_eq_ok, h.resolve_child hs (fun target ht => ?_), placeIn, hat]
  rw [hat] at ht
  cases ht
  cases hlink

theorem child (h : fs.LeadsTo cwd p loc) (hs : IsName s) (hat : fs.at? (loc ++ [s]) = some .directory) :
    fs.LeadsTo cwd (p.child s) (loc ++ [s]) := leadsTo_iff.2 (h.found_child hs hat rfl)

theorem descend (h : fs.LeadsTo cwd p loc) (hw : fs.WellFormed) (hat : fs.at? (loc ++ rel) = some .directory) :
    fs.LeadsTo cwd (p.descend rel) (loc ++ rel) := by
  induction rel using List.reverseRecOn with
  | nil => simpa [Path.descend] using h
  | append_singleton rel s ih =>
      rw [← List.append_assoc] at hat ⊢
      rw [descend_append]
      have hs : (fs.at? (loc ++ rel ++ [s])).isSome := by rw [hat]; rfl
      exact (ih (hw.parent hs)).child (hw.isName hs) hat

theorem trimmed (h : fs.LeadsTo cwd p loc) : fs.LeadsTo cwd p.trimmed loc := by
  have hstart : startOf cwd p.trimmed.text.toList = startOf cwd p.text.toList := by
    have hroot : p.trimmed.text.toList.head? = some '/' ↔ p.text.toList.head? = some '/' := by
      rw [← lead_eq_root, ← lead_eq_root, (parts_trimmed h.1).1]
    simp only [startOf, hroot]
  obtain ⟨n, hn⟩ := stretches_trimmed h.1
  have hl := h.2
  rw [hn] at hl
  refine ⟨trimmed_ne_empty h.1, hstart ▸ ?_⟩
  clear hn
  induction n with
  | zero => simpa using hl
  | succ n ih =>
      rw [List.replicate_succ', ← List.append_assoc] at hl
      refine ih (hl.drop_filler (.inr rfl) ?_)
      rw [List.filter_append, filter_stretches]
      congr 1
      exact List.filter_eq_self.2 fun s hs => by rw [List.eq_of_mem_replicate hs]; rfl

/-- The path of a child under another name denotes what stands under that name. -/
theorem locate_sibling (h : fs.LeadsTo cwd p loc) (hs : IsName s) {t : String} (ht : IsName t) :
    fs.locate cwd ((p.child s).withFileName t) = .ok (fs.placeIn loc t) := by
  rw [withFileName_child hs h.1]
  exact h.trimmed.locate_child ht

end LeadsTo

end SiteTree.FileSystem
