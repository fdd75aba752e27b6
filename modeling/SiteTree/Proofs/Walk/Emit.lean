import SiteTree.Walk
import SiteTree.Proofs.Chain
import SiteTree.Proofs.FileSystem.Inside

/-!
Emitting one file of the source tree: the chain and the copy keep what writing and copying keep. In
particular all that they write is confined to the directory that holds the target.
-/

namespace SiteTree

open SiteTree.Action FileSystem

variable {J : FileSystem → Prop} {T : Path → Prop} {fs₀ : FileSystem} {base : List String} {root : Location}
    {source target : Path}

theorem Action.readText_keeps (path : Path) : Keeps J (readText path) := Keeps.look _ _

theorem Action.readBytes_keeps (path : Path) : Keeps J (readBytes path) := Keeps.look _ _

theorem Action.progress_keeps (phase : Phase) (text : String) : Keeps J (progress phase text) :=
  (Keeps.debug _ _).bind fun _ => Keeps.tell _

theorem Page.render_keeps (source : Path) (options : Options) : Keeps J (render source options) := by
  refine (readText_keeps source).bind fun content w hw => ?_
  rw [Action.after, get_bind]
  cases Template.render (findInclude w.files w.cwd options.sourceRoot)
    (source.relativeTo options.sourceRoot).text content options.scope <;> exact hw

theorem Stylesheet.tellRepeats_keeps (visit : Visit) : Keeps J (tellRepeats visit) :=
  Keeps.forM fun _ _ => Keeps.debug _ _

theorem Stylesheet.bundle_keeps (entry : Path) : Keeps J (bundle entry) := by
  intro w hw
  rw [Action.after, bundle, get_bind]
  cases bundleFile w.files w.cwd entry with
  | ok s visit => exact ((tellRepeats_keeps visit).bind fun _ => Keeps.pure s) w hw
  | error e visit => exact ((tellRepeats_keeps visit).bind fun _ => Keeps.throw e) w hw

/-- A kind of targets, pages with their place included, at which writing and copying keep a property of the files. -/
structure Writes (J : FileSystem → Prop) (T : Path → Prop) : Prop where
  place : ∀ {target}, T target → T (Page.placeOf target)
  text : ∀ {target}, T target → ∀ text, Keeps J (writeText target text)
  copy : ∀ {target}, T target → ∀ source, Keeps J (copy source target)

/-- Writes to plain names inside a directory are confined to it. -/
theorem writes_confined : Writes (Confined base root fs₀) (IsTarget base) :=
  ⟨fun h => h.placeOf, fun h => writeText_keeps h.inside, fun h => copy_keeps h.inside⟩

section

variable (hw : Writes J T)

include hw

theorem Page.offer_keeps (options : Options) : Link.Keeps J T ⟨LinkKind.page.name, offer options⟩ := by
  constructor
  · intro source target ht
    show Keeps _ (offer options source target)
    rw [offer]
    split
    · exact Keeps.pure _
    · exact (render_keeps source options).bind fun content =>
        (hw.text (hw.place ht) content).bind fun _ => Keeps.pure _
  · intro source target w w' paths ht h q hq
    replace h : offer options source target w = .ok (.produced paths) w' := h
    rw [offer] at h
    split at h
    · cases h
    · obtain ⟨content, w₁, -, h⟩ := bind_eq_ok h
      obtain ⟨-, w₂, -, h⟩ := bind_eq_ok h
      cases h
      exact List.mem_singleton.1 hq ▸ hw.place ht

theorem Stylesheet.offer_keeps : Link.Keeps J T ⟨LinkKind.stylesheet.name, offer⟩ := by
  constructor
  · intro source target ht
    show Keeps _ (offer source target)
    rw [offer]
    split
    · exact Keeps.pure _
    · split
      · exact Keeps.pure _
      · exact (bundle_keeps source).bind fun content =>
          (hw.text ht content).bind fun _ => Keeps.pure _
  · intro source target w w' paths ht h q hq
    replace h : offer source target w = .ok (.produced paths) w' := h
    rw [offer] at h
    split at h
    · cases h
    · split at h
      · cases h
      · obtain ⟨content, w₁, -, h⟩ := bind_eq_ok h
        obtain ⟨-, w₂, -, h⟩ := bind_eq_ok h
        cases h
        exact List.mem_singleton.1 hq ▸ ht

theorem LinkKind.link_keeps (options : Options) (kind : LinkKind) : Link.Keeps J T (kind.link options) := by
  cases kind with
  | page => exact Page.offer_keeps hw options
  | stylesheet => exact Stylesheet.offer_keeps hw

namespace Walk

theorem runChain_keeps (options : Options) (source : Path) (ht : T target) : Keeps J (runChain options source target) := by
  have hlinks : ∀ l ∈ options.links.map (·.link options), l.Keeps J T := by
    intro l hl
    obtain ⟨kind, -, rfl⟩ := List.mem_map.1 hl
    exact kind.link_keeps hw options
  refine (Chain.run_keeps hlinks (fun _ _ => progress_keeps _ _) chainLimit source ht).bind fun applied => ?_
  cases applied with
  | none => exact Keeps.throw _
  | some applied => exact Keeps.pure _

theorem emit_keeps (options : Options) (source : Path) (ht : T target) : Keeps J (emit options source target) := by
  refine (runChain_keeps hw options source ht).bind fun applied => ?_
  split
  · exact Keeps.pure _
  · refine (Keeps.check _).bind fun there => ?_
    split
    · exact Keeps.debug _ _
    · exact hw.copy ht source

end Walk

end

end SiteTree
