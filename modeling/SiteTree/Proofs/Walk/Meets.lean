import SiteTree.Proofs.Walk.Emit

/-!
The expansions that a walk meets, and what a walk keeps of the files if every emission does.
-/

namespace SiteTree.Walk

open SiteTree.Action FileSystem EntryName

/-- The entries of a directory, told before they are listed. -/
def listing (options : Options) (dir dest : Path) : Action (List Entry) := do
  Action.progress .exploring (options.label dir dest)
  entriesOf dir

/-- A walk through a directory, begun in one world, comes to an expansion of an entry in another. -/
def Comes (limits : Limits) (n : Nat) (options : Options) (dir dest : Path) (w : World) (entry : Entry)
    (e : Expansion) (w' : World) : Prop :=
  ∃ entries expansions w₁ w₂, listing options dir dest w = .ok entries w₁ ∧
    Action.Comes (visit limits (render limits n) options dest) entries w₁ entry w₂ ∧
    limits.skip.any (·.alike entry.path) = false ∧
    limits.ignore.hides (entry.path.relativeTo options.sourceRoot) = false ∧
    expand entry.name options.scope = .ok expansions ∧
    Action.Comes (enter (render limits n) options dest entry) expansions
      ((tellPruned entry.name expansions).after w₂) e w'

/-- Where the contents of a directory go: those of a loop take its place. -/
def innerDest (dest : Path) (e : Expansion) : Path := if e.form = .loop then dest else dest.child e.name

/-- The expansions that a walk meets, from whatever directory below. -/
inductive Meets (limits : Limits) : Nat → Options → Path → Path → World → Expansion → Prop
  | own {n : Nat} {options : Options} {dir dest : Path} {w w' : World} {entry : Entry} {e : Expansion}
      (h : Comes limits n options dir dest w entry e w') : Meets limits (n + 1) options dir dest w e
  | inner {n : Nat} {options : Options} {dir dest : Path} {w w' : World} {entry : Entry} {e e' : Expansion}
      (h : Comes limits n options dir dest w entry e w') (hd : entry.isDirectory = true)
      (hm : Meets limits n { options with scope := e.scope } entry.path (innerDest dest e) w' e') :
      Meets limits (n + 1) options dir dest w e'

/-- Every name that the walk puts into a target is plain. Loops are put into none. -/
def MeetsPlain (limits : Limits) (n : Nat) (options : Options) (dir dest : Path) (w : World) : Prop :=
  ∀ e, Meets limits n options dir dest w e → e.form ≠ .loop → IsPlain e.name

/-- Every name that the walk puts into a target fits. -/
def MeetsOnly (fits : String → Prop) (limits : Limits) (n : Nat) (options : Options) (dir dest : Path) (w : World) :
    Prop :=
  ∀ e, Meets limits n options dir dest w e → e.form ≠ .loop → fits e.name

/-- What an entry expands to, if it is not passed over. -/
def expansions? (limits : Limits) (options : Options) (entry : Entry) : Option (List Expansion) :=
  if limits.skip.any (·.alike entry.path) || limits.ignore.hides (entry.path.relativeTo options.sourceRoot)
    then none
  else (expand entry.name options.scope).toOption

/-- The expansions that a walk comes to in a directory, each with its entry and its world. -/
def comings (limits : Limits) (n : Nat) (options : Options) (dir dest : Path) (w : World) :
    List (Entry × Expansion × World) :=
  match listing options dir dest w with
  | .error _ _ => []
  | .ok entries w₁ =>
    (arrivals (visit limits (render limits n) options dest) entries w₁).flatMap fun (entry, w₂) =>
      match expansions? limits options entry with
      | none => []
      | some expansions => (arrivals (enter (render limits n) options dest entry) expansions
          ((tellPruned entry.name expansions).after w₂)).map fun (e, w₃) => (entry, e, w₃)

/-- The expansions that a walk meets, in the order it comes to them. -/
def met (limits : Limits) : Nat → Options → Path → Path → World → List Expansion
  | 0, _, _, _, _ => []
  | n + 1, options, dir, dest, w =>
    (comings limits n options dir dest w).flatMap fun (entry, e, w') =>
      e :: if entry.isDirectory then met limits n { options with scope := e.scope }
        entry.path (innerDest dest e) w'
        else []

variable {J : FileSystem → Prop} {D : Path → Prop} {limits : Limits} {n : Nat} {options : Options}
    {dir dest : Path}
  {w w' : World} {entry : Entry} {e : Expansion} {expansions : List Expansion}

theorem expansions?_eq_some : expansions? limits options entry = some expansions ↔
    limits.skip.any (·.alike entry.path) = false ∧
      limits.ignore.hides (entry.path.relativeTo options.sourceRoot) = false ∧
      expand entry.name options.scope = .ok expansions := by
  rw [expansions?]
  cases limits.skip.any (·.alike entry.path) <;>
    cases limits.ignore.hides (entry.path.relativeTo options.sourceRoot) <;>
    cases expand entry.name options.scope <;> simp [Except.toOption]

theorem mem_comings : (entry, e, w') ∈ comings limits n options dir dest w ↔
    Comes limits n options dir dest w entry e w' := by
  rw [comings]
  constructor
  · intro h
    cases hl : listing options dir dest w with
    | error f w₁ => simp [hl] at h
    | ok entries w₁ =>
        rw [hl] at h
        obtain ⟨⟨entry', w₂⟩, hv, h⟩ := List.mem_flatMap.1 h
        dsimp only at h
        cases hx : expansions? limits options entry' with
        | none => simp [hx] at h
        | some expansions =>
            rw [hx] at h
            obtain ⟨⟨e', w₃⟩, he, heq⟩ := List.mem_map.1 h
            cases heq
            obtain ⟨hskip, hhides, hexp⟩ := expansions?_eq_some.1 hx
            exact ⟨entries, expansions, w₁, w₂, hl, mem_arrivals.1 hv, hskip, hhides, hexp, mem_arrivals.1 he⟩
  · rintro ⟨entries, expansions, w₁, w₂, hl, hv, hskip, hhides, hexp, he⟩
    rw [hl]
    refine List.mem_flatMap.2 ⟨(entry, w₂), mem_arrivals.2 hv, ?_⟩
    dsimp only
    rw [expansions?_eq_some.2 ⟨hskip, hhides, hexp⟩]
    exact List.mem_map.2 ⟨(e, w'), mem_arrivals.2 he, rfl⟩

theorem mem_met : e ∈ met limits n options dir dest w ↔ Meets limits n options dir dest w e := by
  constructor
  · intro h
    induction n generalizing options dir dest w with
    | zero => cases h
    | succ n ih =>
        obtain ⟨⟨entry, e', w'⟩, hc, h⟩ := List.mem_flatMap.1 h
        rw [mem_comings] at hc
        rcases List.mem_cons.1 h with rfl | h
        · exact .own hc
        · split at h
          · next hd => exact .inner hc hd (ih h)
          · cases h
  · intro h
    induction h with
    | own h => exact List.mem_flatMap.2 ⟨_, mem_comings.2 h, by simp⟩
    | inner h hd _ ih => exact List.mem_flatMap.2 ⟨_, mem_comings.2 h, by simp [hd, ih]⟩

instance (limits : Limits) (n : Nat) (options : Options) (dir dest : Path) (w : World) :
    Decidable (MeetsPlain limits n options dir dest w) :=
  decidable_of_iff (∀ e ∈ met limits n options dir dest w, e.form ≠ .loop → IsPlain e.name)
    ⟨fun h e hm => h e (mem_met.2 hm), fun h e hm => h e (mem_met.1 hm)⟩

theorem render_succ (n : Nat) (options : Options) (dir dest : Path) : render limits (n + 1) options dir dest =
    listing options dir dest >>= fun entries =>
      entries.forM (visit limits (render limits n) options dest) := by
  rw [render, listing, bind_assoc]

theorem listing_keeps (options : Options) (dir dest : Path) : Keeps J (listing options dir dest) := by
  refine (progress_keeps _ _).bind fun _ => (Keeps.look _ _).bind fun names => ?_
  exact Keeps.mapM fun name _ => (Keeps.look _ _).bind fun _ => Keeps.pure _

theorem tellPruned_keeps (name : String) (expansions : List Expansion) :
    Keeps J (tellPruned name expansions) := by
  unfold tellPruned
  split
  · exact Keeps.debug _ _
  · exact Keeps.pure _

theorem ofExcept_bind_keeps {α β : Type} {x : Except Failure α} {f : α → Action β}
    {w : World} (hw : J w.files)
    (h : ∀ v, x = .ok v → J ((f v).after w).files) : J ((ofExcept x >>= f).after w).files := by
  cases x with
  | error e => exact hw
  | ok v => exact h v rfl

theorem visit_keeps {descend : Options → Path → Path → Action Unit} (hw : J w.files)
    (h : ∀ expansions e w', limits.skip.any (·.alike entry.path) = false →
      limits.ignore.hides (entry.path.relativeTo options.sourceRoot) = false →
      expand entry.name options.scope = .ok expansions →
      Action.Comes (enter descend options dest entry) expansions ((tellPruned entry.name expansions).after w) e w' →
      J w'.files → J ((enter descend options dest entry e).after w').files) :
    J ((visit limits descend options dest entry).after w).files := by
  rw [visit]
  split
  · exact hw
  next hskip =>
  dsimp only
  split
  · exact hw
  next hhides =>
  refine ofExcept_bind_keeps hw fun expansions hexp => ?_
  refine bind_keeps (tellPruned_keeps _ _ w hw) fun _ w₁ htell hw₁ => ?_
  refine forM_keeps hw₁ fun e w₂ henter hw₂ => ?_
  rw [← after_ok htell] at henter
  exact h expansions e w₂ (by simpa using hskip) (by simpa using hhides) hexp henter hw₂

section

variable (hw : J w.files) (h : ∀ entry e w', Comes limits n options dir dest w entry e w' → J w'.files →
    J ((enter (render limits n) options dest entry e).after w').files)

include hw h

/-- What each expansion keeps that a directory comes to, the directory keeps. -/
theorem render_succ_keeps : J ((render limits (n + 1) options dir dest).after w).files := by
  rw [render_succ]
  refine bind_keeps (listing_keeps options dir dest w hw) fun entries w₁ hl hw₁ => ?_
  refine forM_keeps hw₁ fun entry w₂ hvisit hw₂ => ?_
  exact visit_keeps hw₂ fun expansions e w₃ hskip hhides hexp henter =>
    h entry e w₃ ⟨entries, expansions, w₁, w₂, hl, hvisit, hskip, hhides, hexp, henter⟩

/-- And so it holds when the walk comes to them. -/
theorem Comes.keeps (hc : Comes limits n options dir dest w entry e w') : J w'.files := by
  obtain ⟨entries, expansions, w₁, w₂, hl, hvisit, hskip, hhides, hexp, henter⟩ := hc
  have hw₁ : J w₁.files := by
    have hlisted := listing_keeps (J := J) options dir dest w hw
    rwa [after_ok hl] at hlisted
  have hw₂ : J w₂.files := hvisit.keeps hw₁ fun entry w₃ hv hw₃ => visit_keeps hw₃
    fun expansions e w₄ hskip hhides hexp he =>
      h entry e w₄ ⟨entries, expansions, w₁, w₃, hl, hv, hskip, hhides, hexp, he⟩
  exact henter.keeps (tellPruned_keeps _ _ w₂ hw₂) fun e w₃ he =>
    h entry e w₃ ⟨entries, expansions, w₁, w₂, hl, hvisit, hskip, hhides, hexp, he⟩

end

section

variable {fits : String → Prop} {links : List LinkKind}
  (hchild : ∀ {dest name}, D dest → fits name → D (dest.child name))
  (hemit : ∀ options source {dest name}, options.links = links → D dest → fits name →
    Keeps J (emit options source (dest.child name)))

include hchild hemit

omit hemit in
theorem innerDest_fits (hd : D dest) (hname : e.form ≠ .loop → fits e.name) : D (innerDest dest e) := by
  rw [innerDest]
  split
  · exact hd
  · next hform => exact hchild hd (hname hform)

omit hchild in
theorem enter_keeps (hlinks : options.links = links) (hw : J w.files) (hd : D dest)
    (hname : e.form ≠ .loop → fits e.name) (hbelow : entry.isDirectory = true →
      J ((render limits n { options with scope := e.scope } entry.path (innerDest dest e)).after w).files) :
    J ((enter (render limits n) options dest entry e).after w).files := by
  rw [innerDest] at hbelow
  unfold enter
  split
  · next hdir hform =>
    rw [if_pos hform] at hbelow
    exact hbelow hdir
  · next hdir hform =>
    rw [if_neg hform] at hbelow
    exact hbelow hdir
  · exact hw
  · next hform => exact hemit { options with scope := e.scope } _ hlinks hd (hname hform) w hw

/-- What holds after the walk: each expansion is entered in the world that those before it have
made, and the induction is on the nesting that is left. -/
theorem render_keeps (n : Nat) (hlinks : options.links = links) (hw : J w.files) (hd : D dest)
    (honly : MeetsOnly fits limits n options dir dest w) : J ((render limits n options dir dest).after w).files := by
  induction n generalizing options dir dest w with
  | zero => exact hw
  | succ n ih =>
      refine render_succ_keeps hw fun entry e w' hcomes hw' => ?_
      have hname := honly e (.own hcomes)
      exact enter_keeps hemit hlinks hw' hd hname fun hdir =>
        ih hlinks hw' (innerDest_fits hchild hd hname) fun e' hm => honly e' (.inner hcomes hdir hm)

theorem Comes.keeps_only (hc : Comes limits n options dir dest w entry e w') (hlinks : options.links = links)
    (hw : J w.files) (hd : D dest) (honly : MeetsOnly fits limits (n + 1) options dir dest w) : J w'.files := by
  refine hc.keeps hw fun entry e w' hcomes hw' => ?_
  have hname := honly e (.own hcomes)
  exact enter_keeps hemit hlinks hw' hd hname fun hdir =>
    render_keeps hchild hemit n hlinks hw' (innerDest_fits hchild hd hname) fun e' hm => honly e' (.inner hcomes hdir hm)

end

end SiteTree.Walk
