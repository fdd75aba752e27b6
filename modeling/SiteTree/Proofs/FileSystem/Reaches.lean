import SiteTree.Proofs.FileSystem.Region

/-!
Lists of stretches that lead to a directory, what a name after them denotes, and trees that grow
by directories only.
-/

namespace SiteTree.FileSystem

open SiteTree.Path

variable {fs fs' : FileSystem} {follow : Bool} {m n : Nat} {cwd cur loc parent x : Location}
  {l r : List String} {s name : String} {node : FileNode} {p : Path}

/-- Nothing changed but that directories came where nothing was. -/
def Grows (fs fs' : FileSystem) : Prop :=
  ∀ x, fs'.at? x = fs.at? x ∨ fs.at? x = none ∧ fs'.at? x = some .directory

theorem Grows.refl (fs : FileSystem) : fs.Grows fs := fun _ => .inl rfl

theorem Grows.at?_eq (h : fs.Grows fs') (hx : fs.at? x = some node) : fs'.at? x = some node := by
  rcases h x with he | ⟨hn, -⟩
  · rw [he, hx]
  · rw [hx] at hn; cases hn

theorem Grows.trans {fs'' : FileSystem} (h : fs.Grows fs') (h' : fs'.Grows fs'') : fs.Grows fs'' := by
  intro x
  rcases h x with he | ⟨hn, hd⟩
  · rw [← he]; exact h' x
  · exact .inr ⟨hn, h'.at?_eq hd⟩

theorem Grows.linkFree (h : fs.Grows fs') (hfree : fs.LinkFree loc) : fs'.LinkFree loc := by
  intro x target hx hl
  rcases h x with he | ⟨-, hd⟩
  · exact hfree x target hx (he ▸ hl)
  · rw [hl] at hd; cases hd

theorem WellFormed.grows_put (h : fs.WellFormed) (hn : fs.at? loc = none) :
    fs.Grows (fs.put loc .directory) := by
  intro x
  have hne : loc ≠ [] := by rintro rfl; cases hn
  by_cases hx : x = loc
  · subst hx; exact .inr ⟨hn, at?_put_self fs _ hne⟩
  · exact .inl (h.at?_put (by simp [hn]) hx)

theorem Leads.fill {slashed : Bool} (h : fs.Leads false n cur l (.vacant parent name slashed))
    (hg : fs.Grows fs') (hat : fs'.at? (parent ++ [name]) = some .directory) (follow : Bool) :
    fs'.Leads follow n cur l (.found (parent ++ [name]) .directory) := by
  generalize hp : Place.vacant parent name slashed = p at h
  induction h with
  | stop | stay => cases hp
  | skip h hs _ ih => exact .skip (hg.at?_eq h) hs (ih hp)
  | up h _ ih => exact .up (hg.at?_eq h) (ih hp)
  | vacant h hs => cases hp; exact .enter (hg.at?_eq h) hs hat nofun (.stop hat)
  | slashed h hs => cases hp; exact .enter (hg.at?_eq h) hs hat nofun (.skip hat (.inl rfl) (.stop hat))
  | jump h hs hn hf _ ih =>
      exact .jump (hg.at?_eq h) hs (hg.at?_eq hn) (.inl (hf.resolve_right nofun)) (ih hp)
  | enter h hs hn hlink _ ih => exact .enter (hg.at?_eq h) hs (hg.at?_eq hn) hlink (ih hp)

/-- What a name in a directory denotes if it is not followed. -/
def placeIn (fs : FileSystem) (dir : Location) (name : String) : Place :=
  match fs.at? (dir ++ [name]) with
  | some node => .found (dir ++ [name]) node
  | none => .vacant dir name false

theorem placeIn_location (fs : FileSystem) (dir : Location) (name : String) :
    (fs.placeIn dir name).location = dir ++ [name] := by
  rw [placeIn]
  split <;> rfl

theorem walk_step (hd : fs.at? loc = some .directory) (hs : IsStep s) :
    fs.walk false (n + 1) loc [s] = .ok (fs.placeIn loc s) := by
  rw [placeIn]
  refine Leads.walk_eq ?_
  cases hn : fs.at? (loc ++ [s]) with
  | none => exact .vacant hd hs hn
  | some node =>
      cases node with
      | link target => exact .stay hd hs hn rfl
      | file bytes => exact .enter hd hs hn nofun (.stop hn)
      | directory => exact .enter hd hs hn nofun (.stop hn)

/-- The stretches lead to a directory, through a link at the end too. -/
def Reaches (fs : FileSystem) (l : List String) (loc : Location) : Prop :=
  fs.Leads true (maxLinks + 1) [] l (.found loc .directory)

theorem Reaches.directory (h : fs.Reaches l loc) : fs.at? loc = some .directory := h.at?_found

theorem Reaches.walk_below {rest : List String} (h : fs.Reaches l loc) (follow : Bool) (hl : "" ∉ l)
    (hrest : rest ≠ []) :
    ∃ m, fs.resolveSteps follow [] (l ++ rest) = fs.walk follow (m + 1) loc rest := by
  obtain ⟨m, hm⟩ := h.walk_append follow hrest
  have hf : l.filter (· ≠ "") = l := by
    rw [List.filter_eq_self]
    rintro s hs
    simp only [decide_eq_true_eq]
    rintro rfl
    exact hl hs
  rw [hf] at hm
  exact ⟨m, hm⟩

theorem Reaches.step (h : fs.Reaches l loc) (hl : "" ∉ l) (hs : IsStep s) :
    fs.resolveSteps false [] (l ++ [s]) = .ok (fs.placeIn loc s) := by
  obtain ⟨m, hm⟩ := h.walk_below false hl (List.cons_ne_nil s [])
  rw [hm, walk_step h.directory hs]

theorem reaches_of_step {place : Place} (h : fs.resolveSteps follow [] (l ++ [s]) = .ok place) (hs : s ≠ "") :
    ∃ loc, fs.Reaches l loc := (Leads.of_walk h).walk_split (.inl hs)

theorem Reaches.unique {loc' : Location} (h : fs.Reaches l loc) (h' : fs.Reaches l loc') : loc = loc' := by
  have he := h.walk_eq.symm.trans h'.walk_eq
  cases he
  rfl

theorem Reaches.mono (h : fs.Reaches l loc) (ho : fs.Outgrows fs') : fs'.Reaches l loc := Leads.mono h ho

theorem ne_empty_of_spells (h : p.Spells l) : "" ∉ l :=
  fun hc => ne_empty_of_mem_stretches (h.stretches ▸ hc) rfl

theorem place_of_resolve {place : Place} (hp : p.Spells (l ++ [s])) (hs : IsStep s)
    (h : fs.resolve cwd follow p = .ok place) : ∃ dir m, fs.Reaches l dir ∧
      (fs.Leads follow (m + 1) dir [s] place ∨ ¬ p.IsOpen ∧ fs.Leads follow (m + 1) dir [s, ""] place) := by
  have hempty : "" ∉ l := fun hc => ne_empty_of_spells hp (List.mem_append_left _ hc)
  rcases hp.resolve_eq fs cwd follow with he | ⟨ho, he⟩
  · rw [he] at h
    obtain ⟨dir, hdir⟩ := reaches_of_step h hs.1
    obtain ⟨m, hm⟩ := hdir.walk_below follow hempty (List.cons_ne_nil s [])
    exact ⟨dir, m, hdir, .inl (.of_walk (hm.symm.trans h))⟩
  · rw [he, List.append_assoc] at h
    obtain ⟨dir, hdir⟩ := (Leads.of_walk h).walk_split (l := l) (.inl hs.1)
    have hreach : fs.Reaches l dir := hdir
    obtain ⟨m, hm⟩ := hreach.walk_below follow hempty (List.cons_ne_nil s [""])
    exact ⟨dir, m, hreach, .inr ⟨ho, .of_walk (hm.symm.trans h)⟩⟩

theorem resolve_of_unreached (hp : p.Spells (l ++ [s])) (hs : IsStep s) (hnone : ∀ dir, ¬ fs.Reaches l dir)
    (cwd : Location) (follow : Bool) : ∃ cause, fs.resolve cwd follow p = .error cause := by
  cases hr : fs.resolve cwd follow p with
  | error cause => exact ⟨cause, rfl⟩
  | ok place =>
      obtain ⟨dir, m, hdir, -⟩ := place_of_resolve hp hs hr
      exact absurd hdir (hnone dir)

theorem Leads.location_step {place : Place} (h : fs.Leads follow n loc (s :: r) place)
    (hr : r = [] ∨ r = [""])
    (hs : IsStep s) (hlink : ∀ target, fs.at? (loc ++ [s]) ≠ some (.link target)) :
    place.location = loc ++ [s] := by
  cases h with
  | skip _ he => exact absurd he fun h => h.elim hs.1 hs.2.1
  | up => exact absurd rfl hs.2.2
  | vacant | slashed => rfl
  | stay _ _ hn | jump _ _ hn => exact absurd hn (hlink _)
  | enter _ _ _ _ hl =>
      rcases hr with rfl | rfl
      · cases hl; rfl
      · generalize he : ([""] : List String) = k at hl
        cases hl with
        | skip _ _ hl => cases he; cases hl; rfl
        | stop | slashed => cases he
        | up => simp at he
        | vacant _ hs | stay _ hs | jump _ hs | enter _ hs => cases he; exact absurd rfl hs.1

theorem Reaches.resolve (h : fs.Reaches l loc) (hp : p.Spells l) (cwd : Location) :
    fs.resolve cwd true p = .ok (.found loc .directory) := by
  rcases hp.resolve_eq fs cwd true with he | ⟨-, he⟩
  · exact he.trans h.walk_eq
  · obtain ⟨m, hm⟩ := h.walk_below true (ne_empty_of_spells hp) (List.cons_ne_nil "" [])
    exact he.trans (hm.trans (Leads.walk_eq (.skip h.directory (.inl rfl) (.stop h.directory))))

/-- Where no link is at the end, it does not matter whether it would be followed. -/
theorem Leads.resolve_self (h : fs.Leads false (maxLinks + 1) [] l (.found loc .directory)) (hp : p.Spells l)
    (cwd : Location) (follow : Bool) : fs.resolve cwd follow p = .ok (.found loc .directory) := by
  have hr : fs.Reaches l loc := h.followed
  cases follow with
  | true => exact hr.resolve hp cwd
  | false =>
      rcases hp.resolve_eq fs cwd false with he | ⟨-, he⟩
      · exact he.trans h.walk_eq
      · obtain ⟨m, hm⟩ := hr.walk_below false (ne_empty_of_spells hp) (List.cons_ne_nil "" [])
        exact he.trans (hm.trans (Leads.walk_eq (.skip hr.directory (.inl rfl) (.stop hr.directory))))

theorem found_eq_ok : fs.found cwd p = .ok (loc, node) ↔ fs.resolve cwd true p = .ok (.found loc node) := by
  rw [found]
  cases fs.resolve cwd true p with
  | error cause => simp [bind, Except.bind]
  | ok place => cases place <;> simp [bind, Except.bind]

theorem isDirectory_iff (h : p.Spells l) : fs.isDirectory cwd p = true ↔ ∃ loc, fs.Reaches l loc := by
  constructor
  · intro hd
    rw [isDirectory] at hd
    split at hd
    · next loc node hf =>
      obtain rfl : node = .directory := by
        cases node with
        | directory => rfl
        | file | link => cases hd
      have hr := found_eq_ok.1 hf
      rcases h.resolve_eq fs cwd true with he | ⟨-, he⟩
      · exact ⟨loc, .of_walk (he.symm.trans hr)⟩
      · exact (Leads.of_walk (he.symm.trans hr)).walk_split (.inr ⟨loc, _, rfl⟩)
    · cases hd
  · rintro ⟨loc, hl⟩
    rw [isDirectory, found_eq_ok.2 (hl.resolve h cwd)]
    rfl

end SiteTree.FileSystem
