import SiteTree.Proofs.FileSystem.Way
import SiteTree.Proofs.Walk.Handed

/-!
Walks that look at none of certain places. What a walk passes over it has seen in the listing, and has asked what
it is, before it passes it over.
-/

namespace SiteTree.Walk

open SiteTree.Action FileSystem EntryName

/-- An entry of that path is passed over. -/
def Limits.passes (limits : Limits) (root p : Path) : Bool :=
  limits.skip.any (·.alike p) || limits.ignore.hides (p.relativeTo root)

/-- An entry that is not passed over is reached past the places, and one that is leads somewhere. -/
def Heeds (I : Location → Prop) (limits : Limits) (root : Path) (w : World) (p : Path) : Prop :=
  if limits.passes root p then w.files.pathExists w.cwd p = true else Avoids I w.files w.cwd p

instance {I : Location → Prop} [DecidablePred I] (limits : Limits) (root : Path) (w : World) (p : Path) :
    Decidable (Heeds I limits root w p) :=
  inferInstanceAs (Decidable (if limits.passes root p then w.files.pathExists w.cwd p = true
    else Avoids I w.files w.cwd p))

/-- A directory is listed past the places, and so are its entries. -/
def Lists (I : Location → Prop) (limits : Limits) (root : Path) (w : World) (dir : Path) : Prop :=
  Avoids I w.files w.cwd dir ∧ ∀ names ∈ (w.files.list w.cwd dir).toOption, ∀ name ∈ names,
    Heeds I limits root w (dir.child name)

instance {I : Location → Prop} [DecidablePred I] (limits : Limits) (root : Path) (w : World) (dir : Path) :
    Decidable (Lists I limits root w dir) :=
  have : Decidable (∀ names ∈ (w.files.list w.cwd dir).toOption, ∀ name ∈ names,
      Heeds I limits root w (dir.child name)) :=
    match (w.files.list w.cwd dir).toOption with
    | none => isTrue nofun
    | some names => decidable_of_iff (∀ name ∈ names, Heeds I limits root w (dir.child name))
        ⟨fun h _ he => by cases he; exact h, fun h => h names rfl⟩
  inferInstanceAs (Decidable (_ ∧ _))

/-- A file is found past the places, when the levels above its target have been made. -/
def CopiesPast (I : Location → Prop) (source target : Path) (w : World) : Prop :=
  Avoids I ((makeParent target).after w).files ((makeParent target).after w).cwd source

instance {I : Location → Prop} [DecidablePred I] (source target : Path) (w : World) :
    Decidable (CopiesPast I source target w) :=
  inferInstanceAs (Decidable (Avoids I _ _ source))

/-- None of the places is on the way to a directory that the walk lists, to an entry that it does not pass over, or
to a file that it copies. -/
def Clear (I : Location → Prop) (limits : Limits) : Nat → Options → Path → Path → World → Prop
  | 0, _, _, _, _ => True
  | n + 1, options, dir, dest, w =>
    Lists I limits options.sourceRoot w dir ∧ ∀ c ∈ comings limits n options dir dest w,
      if c.1.isDirectory then
        Clear I limits n { options with scope := c.2.1.scope } c.1.path (innerDest dest c.2.1) c.2.2
      else c.2.1.form ≠ .loop → CopiesPast I c.1.path (dest.child c.2.1.name) c.2.2

instance Clear.instDecidable {I : Location → Prop} [DecidablePred I] (limits : Limits) :
    ∀ (n : Nat) (options : Options) (dir dest : Path) (w : World), Decidable (Clear I limits n options dir dest w)
  | 0, _, _, _, _ => isTrue trivial
  | n + 1, _, _, _, _ =>
    have : ∀ options dir dest w, Decidable (Clear I limits n options dir dest w) := Clear.instDecidable limits n
    inferInstanceAs (Decidable (_ ∧ _))

variable {I : Location → Prop} {limits : Limits} {n : Nat} {options : Options} {root dir dest : Path} {w w' : World}
  {entry : Entry} {e : Expansion} {name : String} {names : List String}
  {descend : Options → Path → Path → Action Unit}

theorem Lists.heeds (h : Lists I limits root w dir) (hl : w.files.list w.cwd dir = .ok names) (hname : name ∈ names) :
    Heeds I limits root w (dir.child name) := h.2 names (by rw [hl]; rfl) name hname

theorem Lists.reached (h : Lists I limits root w dir) (hl : w.files.list w.cwd dir = .ok names) (hname : name ∈ names)
    (hp : limits.passes root (dir.child name) = false) : Avoids I w.files w.cwd (dir.child name) := by
  have hone := h.heeds hl hname
  rwa [Heeds, if_neg (by simp [hp])] at hone

/-- What an entry is, as far as its path tells. -/
theorem entryOf_eq (dir : Path) (name : String) (w : World) :
    entryOf dir name w = match w.files.found w.cwd (dir.child name) with
      | .ok (_, node) => .ok ⟨name, dir.child name, node.isDirectory⟩ w
      | .error cause => .error (.read (dir.child name) cause) w := by
  have hlook := look_eq (fun fs cwd => fs.found cwd (dir.child name)) (.read (dir.child name)) w
  rw [entryOf]
  dsimp only
  cases hf : w.files.found w.cwd (dir.child name) with
  | error cause =>
      rw [hf] at hlook
      exact bind_error hlook
  | ok there =>
      rw [hf] at hlook
      exact bind_ok hlook

theorem Lists.passed (h : Lists I limits root w dir) (hl : w.files.list w.cwd dir = .ok names) (hname : name ∈ names)
    (hp : limits.passes root (dir.child name) = true) :
    ∃ d, entryOf dir name w = .ok ⟨name, dir.child name, d⟩ w := by
  have hthere := h.heeds hl hname
  rw [Heeds, if_pos hp, pathExists] at hthere
  rw [entryOf_eq]
  cases hf : w.files.found w.cwd (dir.child name) with
  | error cause =>
      rw [hf] at hthere
      cases hthere
  | ok there => exact ⟨_, rfl⟩

section

variable (h : Clear I limits (n + 1) options dir dest w)

include h

theorem Clear.lists : Lists I limits options.sourceRoot w dir := h.1

theorem Clear.below (hc : Comes limits n options dir dest w entry e w') (hd : entry.isDirectory = true) :
    Clear I limits n { options with scope := e.scope } entry.path (innerDest dest e) w' := by
  have hone := h.2 _ (mem_comings.2 hc)
  rwa [if_pos hd] at hone

theorem Clear.copied (hc : Comes limits n options dir dest w entry e w') (hd : entry.isDirectory = false)
    (hloop : e.form ≠ .loop) : CopiesPast I entry.path (dest.child e.name) w' := by
  have hone := h.2 _ (mem_comings.2 hc)
  rw [if_neg (by simp [hd])] at hone
  exact hone hloop

end

/-- An entry that is passed over only has that told. -/
theorem visit_passed (h : limits.passes options.sourceRoot entry.path = true) (w : World) :
    ∃ events, visit limits descend options dest entry w = .ok () { w with events := events } := by
  rw [visit]
  split
  · exact ⟨_, rfl⟩
  · next hskip =>
    rw [Limits.passes, Bool.eq_false_iff.2 hskip, Bool.false_or] at h
    simp only [h, if_true]
    exact ⟨_, rfl⟩

theorem visit_taken (h : limits.passes options.sourceRoot entry.path = false) (w : World) :
    visit limits descend options dest entry w = (ofExcept (expand entry.name options.scope) >>= fun expansions =>
      tellPruned entry.name expansions >>= fun _ => expansions.forM (enter descend options dest entry)) w := by
  rw [Limits.passes, Bool.or_eq_false_iff] at h
  simp only [visit, h.1, h.2]
  rfl

end SiteTree.Walk
