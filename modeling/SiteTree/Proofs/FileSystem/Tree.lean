import Mathlib.Data.List.Infix
import Mathlib.Tactic.Tauto
import SiteTree.FileSystem.Change

/-!
What stands where after a change to a tree of files, and the trees that a disk can hold.
-/

namespace SiteTree

/-- A name that a directory can hold. -/
def IsName (s : String) : Prop := s ≠ "" ∧ s ≠ "." ∧ s ≠ ".." ∧ '/' ∉ s.toList

instance (s : String) : Decidable (IsName s) := inferInstanceAs (Decidable (_ ∧ _))

def FileNode.IsFile (node : FileNode) : Prop := ∃ bytes, node = .file bytes

theorem FileNode.not_isFile_directory : ¬ FileNode.directory.IsFile := by
  rintro ⟨bytes, h⟩
  cases h

theorem FileNode.not_isFile_link (target : String) : ¬ (FileNode.link target).IsFile := by
  rintro ⟨bytes, h⟩
  cases h

def FileNode.isLink : FileNode → Bool
  | .link _ => true
  | _ => false

namespace FileSystem

variable {fs : FileSystem} {loc x old new parent : Location} {node : FileNode} {name : String}

theorem lookup_filter (p : Location → Bool) (l : List (Location × FileNode)) (k : Location) :
    (l.filter fun e => p e.1).lookup k = if p k then l.lookup k else none := by
  induction l with
  | nil => simp
  | cons e l ih =>
      obtain ⟨a, v⟩ := e
      by_cases hk : k = a
      · subst hk
        by_cases hp : p k <;> simp [hp, ih]
      · have hb : (k == a) = false := by simpa using hk
        by_cases hp : p a <;> simp [hp, hb, List.lookup_cons, ih]

@[simp] theorem at?_nil (fs : FileSystem) : fs.at? [] = some .directory := rfl

theorem at?_of_ne_nil (fs : FileSystem) (hx : x ≠ []) : fs.at? x = fs.entries.lookup x := by
  simp [at?, hx]

theorem at?_remove (fs : FileSystem) (loc : Location) (hx : x ≠ []) :
    (fs.remove loc).at? x = if loc <+: x then none else fs.at? x := by
  have h := lookup_filter (fun k => !loc.isPrefixOf k) fs.entries x
  rw [at?_of_ne_nil _ hx, at?_of_ne_nil _ hx, remove, h]
  by_cases hp : loc <+: x
  · simp [hp, List.isPrefixOf_iff_prefix.2 hp]
  · have hb : loc.isPrefixOf x = false := Bool.eq_false_iff.2 (mt List.isPrefixOf_iff_prefix.1 hp)
    simp [hp, hb]

theorem at?_remove_apart (h : ¬ loc <+: x) : (fs.remove loc).at? x = fs.at? x := by
  by_cases hx : x = []
  · subst hx; rfl
  · rw [at?_remove fs loc hx, if_neg h]

theorem at?_remove_below (h : loc <+: x) (hx : x ≠ []) : (fs.remove loc).at? x = none := by
  rw [at?_remove fs loc hx, if_pos h]

theorem at?_put_self (fs : FileSystem) (node : FileNode) (hl : loc ≠ []) :
    (fs.put loc node).at? loc = some node := by
  rw [at?_of_ne_nil _ hl]
  simp [put]

theorem at?_put_of_ne (h : x ≠ loc) : (fs.put loc node).at? x = (fs.remove loc).at? x := by
  by_cases hx : x = []
  · subst hx; rfl
  · have hb : (x == loc) = false := by simpa using h
    rw [at?_of_ne_nil _ hx, at?_of_ne_nil _ hx]
    simp [put, List.lookup_cons, hb]

theorem at?_put_apart (h : ¬ loc <+: x) : (fs.put loc node).at? x = fs.at? x := by
  have hne : x ≠ loc := by rintro rfl; exact h List.prefix_rfl
  rw [at?_put_of_ne hne, at?_remove_apart h]

theorem at?_put_below (h : loc <+: x) (hne : x ≠ loc) : (fs.put loc node).at? x = none := by
  have hx : x ≠ [] := by
    rintro rfl
    exact hne (List.prefix_nil.1 h).symm
  rw [at?_put_of_ne hne, at?_remove_below h hx]

theorem dropLocation?_eq_some {a b l : Location} : dropLocation? a b = some l ↔ b = a ++ l := by
  induction a generalizing b with
  | nil => simp [dropLocation?, eq_comm]
  | cons s a ih =>
      cases b with
      | nil => simp [dropLocation?]
      | cons t b =>
          by_cases h : s = t
          · simp [dropLocation?, h, ih]
          · simp [dropLocation?, h, eq_comm]

theorem dropLocation?_append (a l : Location) : dropLocation? a (a ++ l) = some l :=
  dropLocation?_eq_some.2 rfl

/-- The entries that a move carries along, under their new locations. -/
def carried (fs : FileSystem) (old new : Location) : List (Location × FileNode) :=
  fs.entries.filterMap fun e => (dropLocation? old e.1).map fun l => (new ++ l, e.2)

theorem lookup_carried (fs : FileSystem) (old new l : Location) :
    (fs.carried old new).lookup (new ++ l) = fs.entries.lookup (old ++ l) := by
  unfold carried
  induction fs.entries with
  | nil => rfl
  | cons e r ih =>
      obtain ⟨k, v⟩ := e
      cases hd : dropLocation? old k with
      | none =>
          have hk : (old ++ l == k) = false := by
            rw [beq_eq_false_iff_ne]
            rintro rfl
            simp [dropLocation?_append] at hd
          simp [hd, List.lookup_cons, hk, ih]
      | some m =>
          obtain rfl := dropLocation?_eq_some.1 hd
          by_cases hm : l = m
          · subst hm; simp [hd]
          · have hn : (new ++ l == new ++ m) = false := by simpa using hm
            have ho : (old ++ l == old ++ m) = false := by simpa using hm
            simp [hd, List.lookup_cons, hn, ho, ih]

theorem lookup_carried_apart (h : ¬ new <+: x) : (fs.carried old new).lookup x = none := by
  rw [List.lookup_eq_none_iff]
  rintro ⟨k, v⟩ hk
  obtain ⟨e, -, he⟩ := List.mem_filterMap.1 hk
  obtain ⟨l, -, hl⟩ := Option.map_eq_some_iff.1 he
  cases hl
  rw [bne_iff_ne]
  rintro rfl
  exact h ⟨l, rfl⟩

theorem at?_move (fs : FileSystem) (old new : Location) (hx : x ≠ []) :
    (fs.move old new).at? x = ((fs.carried old new).lookup x).or (((fs.remove old).remove new).at? x) := by
  rw [at?_of_ne_nil _ hx, at?_of_ne_nil _ hx, move, List.lookup_append]
  rfl

theorem at?_move_new (hold : old ≠ []) (hnew : new ≠ []) (l : Location) :
    (fs.move old new).at? (new ++ l) = fs.at? (old ++ l) := by
  have hn : new ++ l ≠ [] := by simp [hnew]
  have ho : old ++ l ≠ [] := by simp [hold]
  rw [at?_move fs old new hn, lookup_carried, at?_remove_below (List.prefix_append new l) hn,
    Option.or_none, at?_of_ne_nil fs ho]

theorem at?_move_old (ho : old <+: x) (hx : x ≠ []) (hn : ¬ new <+: x) : (fs.move old new).at? x = none := by
  rw [at?_move fs old new hx, lookup_carried_apart hn, Option.none_or,
    at?_remove_apart hn, at?_remove_below ho hx]

theorem at?_move_apart (ho : ¬ old <+: x) (hn : ¬ new <+: x) : (fs.move old new).at? x = fs.at? x := by
  by_cases hx : x = []
  · subst hx; rfl
  · rw [at?_move fs old new hx, lookup_carried_apart hn, Option.none_or,
      at?_remove_apart hn, at?_remove_apart ho]

theorem mem_insertName (n a : String) (l : List String) : n ∈ insertName a l ↔ n = a ∨ n ∈ l := by
  induction l with
  | nil => simp [insertName]
  | cons b l ih =>
      by_cases hab : a = b
      · simp [insertName, hab]
      · by_cases hlt : a < b
        · simp [insertName, hab, hlt]
        · simp [insertName, hab, hlt, ih]
          tauto

theorem mem_foldr_insertName (n : String) (l : List String) : n ∈ l.foldr insertName [] ↔ n ∈ l := by
  induction l with
  | nil => simp
  | cons a l ih => simp [mem_insertName, ih]

theorem childName?_eq_some {e : Location × FileNode} : childName? loc e = some name ↔
    e.1 = loc ++ [name] := by
  unfold childName?
  rw [← dropLocation?_eq_some]
  split <;> simp_all

theorem mem_children : name ∈ fs.children loc ↔ (fs.at? (loc ++ [name])).isSome := by
  rw [children, mem_foldr_insertName, List.mem_filterMap, at?_of_ne_nil fs (by simp), List.lookup_isSome_iff]
  simp only [childName?_eq_some, beq_iff_eq]
  exact exists_congr fun e => and_congr_right fun _ => eq_comm

theorem not_append_isPrefix : ¬ parent ++ [name] <+: parent := by
  intro h
  have hl := h.length_le
  simp only [List.length_append, List.length_singleton] at hl
  omega

/-- Everything lies in a directory, under a name that a directory can hold. -/
structure WellFormed (fs : FileSystem) : Prop where
  parent : ∀ {loc name}, (fs.at? (loc ++ [name])).isSome → fs.at? loc = some .directory
  isName : ∀ {loc name}, (fs.at? (loc ++ [name])).isSome → IsName name

theorem at?_isSome_of_mem {e : Location × FileNode} (h : e ∈ fs.entries) (hne : e.1 ≠ []) :
    (fs.at? e.1).isSome := by
  rw [at?_of_ne_nil _ hne, List.lookup_isSome_iff]
  exact ⟨e, h, by simp⟩

theorem mem_of_at?_isSome (hne : x ≠ []) (h : (fs.at? x).isSome) : ∃ e ∈ fs.entries, e.1 = x := by
  rw [at?_of_ne_nil _ hne, List.lookup_isSome_iff] at h
  obtain ⟨e, he, hx⟩ := h
  exact ⟨e, he, (beq_iff_eq.1 hx).symm⟩

/-- Only what is listed has to be checked. -/
theorem wellFormed_iff : fs.WellFormed ↔ ∀ e ∈ fs.entries, e.1 ≠ [] →
    fs.at? e.1.dropLast = some .directory ∧ IsName (e.1.getLastD "") := by
  constructor
  · intro h e he hne
    have hs := at?_isSome_of_mem he hne
    obtain ⟨l, name, hl⟩ := (List.eq_nil_or_concat' e.1).resolve_left hne
    rw [hl] at hs ⊢
    simpa using ⟨h.parent hs, h.isName hs⟩
  · intro h
    have hlast : ∀ {l name}, (fs.at? (l ++ [name])).isSome → fs.at? l = some .directory ∧ IsName name := by
      intro l name hs
      obtain ⟨e, he, hl⟩ := mem_of_at?_isSome (by simp) hs
      simpa [hl] using h e he (by simp [hl])
    exact ⟨fun hs => (hlast hs).1, fun hs => (hlast hs).2⟩

instance (fs : FileSystem) : Decidable fs.WellFormed := decidable_of_iff' _ wellFormed_iff

theorem WellFormed.above (h : fs.WellFormed) {l : Location} (hl : l ≠ [])
    (hx : (fs.at? (loc ++ l)).isSome) : fs.at? loc = some .directory := by
  induction l using List.reverseRecOn with
  | nil => exact absurd rfl hl
  | append_singleton l a ih =>
      have hp := h.parent (by rwa [List.append_assoc])
      by_cases hne : l = []
      · simpa [hne] using hp
      · exact ih hne (by rw [hp]; rfl)

theorem WellFormed.isSome_above (h : fs.WellFormed) {l : Location} (hx : (fs.at? (loc ++ l)).isSome) :
    (fs.at? loc).isSome := by
  by_cases hl : l = []
  · rwa [hl, List.append_nil] at hx
  · rw [h.above hl hx]
    rfl

theorem WellFormed.at?_below (h : fs.WellFormed) (hloc : fs.at? loc ≠ some .directory)
    (hx : loc <+: x) (hne : x ≠ loc) : fs.at? x = none := by
  obtain ⟨l, rfl⟩ := hx
  have hl : l ≠ [] := by rintro rfl; simp at hne
  by_contra hs
  exact hloc (h.above hl (Option.isSome_iff_ne_none.2 hs))

theorem WellFormed.at?_put (h : fs.WellFormed) (hloc : fs.at? loc ≠ some .directory) (hne : x ≠ loc) :
    (fs.put loc node).at? x = fs.at? x := by
  by_cases hp : loc <+: x
  · rw [at?_put_below hp hne, h.at?_below hloc hp hne]
  · exact at?_put_apart hp

theorem WellFormed.remove (h : fs.WellFormed) (loc : Location) : (fs.remove loc).WellFormed := by
  have keep : ∀ {x name}, ((fs.remove loc).at? (x ++ [name])).isSome →
      ¬ loc <+: x ++ [name] ∧ (fs.at? (x ++ [name])).isSome := by
    intro x name hx
    rw [at?_remove fs loc (by simp)] at hx
    split at hx
    · simp at hx
    · exact ⟨by assumption, hx⟩
  constructor
  · intro x name hx
    obtain ⟨hn, hs⟩ := keep hx
    rw [at?_remove_apart fun hp => hn (hp.trans (List.prefix_append _ _)), h.parent hs]
  · exact fun hx => h.isName (keep hx).2

theorem WellFormed.put (h : fs.WellFormed) (hparent : fs.at? parent = some .directory) (hname : IsName name) :
    (fs.put (parent ++ [name]) node).WellFormed := by
  have same : ∀ {x}, ¬ parent ++ [name] <+: x → (fs.put (parent ++ [name]) node).at? x = fs.at? x :=
    fun hx => at?_put_apart hx
  constructor
  · intro x n hx
    by_cases he : x ++ [n] = parent ++ [name]
    · obtain ⟨rfl, -⟩ := List.append_inj' he rfl
      rw [same fun hp => not_append_isPrefix hp, hparent]
    · by_cases hp : parent ++ [name] <+: x ++ [n]
      · rw [at?_put_below hp he] at hx; simp at hx
      · rw [same hp] at hx
        rw [same fun hq => hp (hq.trans (List.prefix_append _ _)), h.parent hx]
  · intro x n hx
    by_cases he : x ++ [n] = parent ++ [name]
    · obtain ⟨-, hn⟩ := List.append_inj' he rfl
      obtain rfl : n = name := by simpa using hn
      exact hname
    · by_cases hp : parent ++ [name] <+: x ++ [n]
      · rw [at?_put_below hp he] at hx; simp at hx
      · rw [same hp] at hx
        exact h.isName hx

theorem WellFormed.exists_eq_append (h : fs.WellFormed) (hx : (fs.at? x).isSome) (hne : x ≠ []) :
    ∃ parent name, x = parent ++ [name] ∧ fs.at? parent = some .directory ∧ IsName name := by
  obtain ⟨parent, name, rfl⟩ := (List.eq_nil_or_concat' x).resolve_left hne
  exact ⟨parent, name, rfl, h.parent hx, h.isName hx⟩

end FileSystem

end SiteTree
