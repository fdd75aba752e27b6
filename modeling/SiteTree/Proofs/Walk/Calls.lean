import SiteTree.Proofs.FileSystem.Written
import SiteTree.Proofs.Walk.Handed
import SiteTree.Proofs.Walk.Literal

/-!
The files that a walk hands to the chain or copies: what each of those calls keeps, the walk keeps, and nothing on the
way to such a file is passed over.
-/

namespace SiteTree

open SiteTree.Action FileSystem SiteTree.Path EntryName

variable {J : FileSystem → Prop} {start : FileSystem}

theorem Action.makeDirectories_written (p : Path) : Keeps (Written start) (makeDirectories p) := by
  intro w hw
  rw [Action.makeDirectories, changePart_files]
  exact hw.makeDirectories w.cwd p

theorem Action.makeParent_written (p : Path) : Keeps (Written start) (makeParent p) := by
  rw [makeParent]
  cases p.parent? with
  | none => exact Keeps.pure _
  | some parent => exact makeDirectories_written parent

/-- Whatever the targets are, no more is done than to write files and to make directories. -/
theorem writes_anywhere : Writes (Written start) fun _ => True := by
  refine ⟨fun _ => trivial, fun {target} _ text => ?_, fun {target} _ source => ?_⟩
  · refine (makeParent_written target).bind fun _ w hw => ?_
    exact change_keeps hw fun fs hfs => hw.write hfs
  · refine (makeParent_written target).bind fun _ => (Keeps.debug _ _).bind fun _ w hw => ?_
    exact change_keeps hw fun fs hfs => hw.copy hfs

namespace Walk

variable {limits : Limits} {n : Nat} {options : Options} {dir dest source : Path} {rel : List String}
  {w w' : World} {entry : Entry} {e : Expansion} {x : Handover}

/-- The expansions that are entered are those that the walk comes to. -/
theorem mem_enterings_emit :
    (entry, e, w') ∈ enterings limits (enterWith emit (renderWith emit limits n) options dest) options dir dest w ↔
      Comes limits n options dir dest w entry e w' := by
  have hrest : renderWith emit limits n = render limits n := by
    funext options dir dest
    exact renderWith_emit limits n options dir dest
  rw [mem_enterings, hrest]
  simp only [expansions?_eq_some]
  constructor
  · rintro ⟨entries, expansions, w₁, w₂, hl, hv, ⟨hskip, hhides, hexp⟩, he⟩
    exact ⟨entries, expansions, w₁, w₂, hl, hv, hskip, hhides, hexp, he⟩
  · rintro ⟨entries, expansions, w₁, w₂, hl, hv, hskip, hhides, hexp, he⟩
    exact ⟨entries, expansions, w₁, w₂, hl, hv, ⟨hskip, hhides, hexp⟩, he⟩

theorem mem_handed_emit : x ∈ handed emit limits (n + 1) options dir dest w ↔ ∃ entry e w' y,
    Comes limits n options dir dest w entry e w' ∧ x = y.under entry e ∧ if entry.isDirectory then
        y ∈ handed emit limits n { options with scope := e.scope } entry.path (innerDest dest e) w'
      else e.form ≠ .loop ∧ y = ⟨[], { options with scope := e.scope }, entry.path, dest.child e.name, w'⟩ := by
  simp only [mem_handed_succ, mem_enterings_emit]

/-- What each call of the emission keeps holds at each of them, and after the walk. -/
theorem handed_keeps (hw : J w.files) (h : ∀ x ∈ handed emit limits n options dir dest w, J x.world.files →
      J ((emit x.options x.source x.target).after x.world).files) :
    (∀ x ∈ handed emit limits n options dir dest w, J x.world.files) ∧
      J ((render limits n options dir dest).after w).files := by
  induction n generalizing options dir dest w with
  | zero => exact ⟨nofun, hw⟩
  | succ n ih =>
      have hbelow : ∀ {entry e w'}, Comes limits n options dir dest w entry e w' → entry.isDirectory = true →
          ∀ y ∈ handed emit limits n { options with scope := e.scope } entry.path (innerDest dest e) w',
            J y.world.files → J ((emit y.options y.source y.target).after y.world).files := by
        intro entry e w' hc hd y hy
        exact h (y.under entry e) (mem_handed_emit.2 ⟨entry, e, w', y, hc, rfl, by simpa [hd] using hy⟩)
      have henter : ∀ entry e w', Comes limits n options dir dest w entry e w' → J w'.files →
          J ((enter (render limits n) options dest entry e).after w').files := by
        intro entry e w' hc hw'
        have heq : enter (render limits n) options dest entry e = enterWith emit (render limits n) options dest entry e := rfl
        rw [heq]
        cases hd : entry.isDirectory with
        | true =>
            rw [enterWith_directory hd]
            exact (ih hw' (hbelow hc hd)).2
        | false =>
            rw [enterWith_file hd]
            split
            · exact hw'
            · next hloop =>
              have hmem : Handover.under entry e ⟨[], { options with scope := e.scope }, entry.path, dest.child e.name, w'⟩ ∈
                  handed emit limits (n + 1) options dir dest w :=
                mem_handed_emit.2 ⟨entry, e, w', _, hc, rfl, by simp [hd, hloop]⟩
              have hkept := h _ hmem hw'
              exact hkept
      refine ⟨fun x hx => ?_, render_succ_keeps hw henter⟩
      obtain ⟨entry, e, w', y, hc, rfl, hy⟩ := mem_handed_emit.1 hx
      have hw' := hc.keeps hw henter
      split at hy
      · next hd => exact (ih hw' (hbelow hc hd)).1 y hy
      · obtain ⟨-, rfl⟩ := hy
        exact hw'

theorem handed_written (hw : Written start w.files) : (∀ x ∈ handed emit limits n options dir dest w, Written start x.world.files) ∧
    Written start ((render limits n options dir dest).after w).files :=
  handed_keeps hw fun x _ => emit_keeps writes_anywhere x.options x.source trivial x.world

theorem Comes.wellFormed (hc : Comes limits n options dir dest w entry e w') (hw : w.files.WellFormed) : w'.files.WellFormed := by
  have hall : MeetsOnly (fun _ => True) limits (n + 1) options dir dest w := fun _ _ _ => trivial
  have hwritten : Written w.files w'.files := hc.keeps_only (D := fun _ => True) (fun _ _ => trivial)
    (fun options source _ _ _ _ _ => emit_keeps writes_anywhere options source trivial) rfl (.refl hw) trivial hall
  exact hwritten.wellFormed

section

variable (hw : w.files.WellFormed) (hroot : options.sourceRoot = source) (hsource : source.text ≠ "")
  (hrel : ∀ s ∈ rel, IsName s) (hentered : Entered limits source rel)

include hw hroot hsource hrel hentered

/-- What a walk comes to it has not passed over, nor anything on the way. -/
theorem Comes.entered (hc : Comes limits n options (source.descend rel) dest w entry e w') :
    entry.path = source.descend (rel ++ [entry.name]) ∧ (∀ s ∈ rel ++ [entry.name], IsName s) ∧
      Entered limits source (rel ++ [entry.name]) := by
  obtain ⟨entries, expansions, w₁, w₂, hl, ⟨before, rest, rfl, -⟩, hskip, hhides, -⟩ := hc
  obtain ⟨u, w₃, hp, hentries⟩ := bind_eq_ok hl
  cases hp
  obtain ⟨hpath, loc, hmem⟩ := (Asset.entriesOf_ok hentries).2 entry (by simp)
  rw [← descend_append] at hpath
  have hnames : ∀ s ∈ rel ++ [entry.name], IsName s := by
    simpa [or_imp, forall_and] using ⟨hrel, Asset.isName_of_mem_children hw hmem⟩
  refine ⟨hpath, hnames, entered_append.2 ⟨hentered, ?_⟩⟩
  rw [hroot, hpath] at hhides
  rw [hpath] at hskip
  rw [passedOver_descend hsource hnames (by simp), hskip, hhides]
  rfl

/-- Nothing on the way to a file that a walk hands over is passed over. -/
theorem handed_entered (hx : x ∈ handed emit limits n options (source.descend rel) dest w) :
    (∀ s ∈ rel ++ x.names, IsName s) ∧ Entered limits source (rel ++ x.names) := by
  induction n generalizing options rel dest w x with
  | zero => cases hx
  | succ n ih =>
      obtain ⟨entry, e, w', y, hc, rfl, hy⟩ := mem_handed_emit.1 hx
      obtain ⟨hpath, hnames, hinner⟩ := hc.entered hw hroot hsource hrel hentered
      split at hy
      · rw [hpath] at hy
        have hy' := @ih { options with scope := e.scope } _ _ _ _ (hc.wellFormed hw) hroot hnames hinner hy
        rwa [List.append_assoc] at hy'
      · obtain ⟨-, rfl⟩ := hy
        exact ⟨hnames, hinner⟩

end

end Walk

end SiteTree
