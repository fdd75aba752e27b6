import SiteTree.Proofs.FileSystem.Fresh

/-!
Changes that are confined to one directory. The directory is named by a list of stretches, and no
link stands in it, so that the paths below it lead to places below it.
-/

namespace SiteTree.FileSystem

open SiteTree.Path

variable {fs fs' fs₀ : FileSystem} {follow : Bool} {n : Nat} {cwd root loc x : Location}
  {base names : List String} {s name : String} {node : FileNode} {p q source : Path} {place : Place}
  {bytes : ByteArray}

/-- A tree that differs from an earlier one at most at and below a directory that holds no link. -/
structure Confined (base : List String) (root : Location) (fs₀ fs : FileSystem) : Prop where
  wellFormed : fs.WellFormed
  leads : fs.Leads false (maxLinks + 1) [] base (.found root .directory)
  linkFree : fs.LinkFree root
  within : ∀ x, ¬ root <+: x → fs.at? x = fs₀.at? x

/-- A path below the directory. -/
def Below (base : List String) (p : Path) : Prop :=
  ∃ names, (∀ s ∈ names, IsName s) ∧ p.Spells (base ++ names)

theorem Below.self (h : p.Spells base) : Below base p := ⟨[], by simp, by simpa using h⟩

/-- Without a slash at its end a path is written to where it leads. -/
theorem write_open (ho : p.IsOpen) (fs : FileSystem) (cwd : Location) (bytes : ByteArray) :
    fs.write cwd p bytes = fs.resolve cwd true p >>= fun
      | .found loc (.file _) => .ok (fs.put loc (.file bytes))
      | .found _ _ => .error .isDirectory
      | .vacant parent name _ => .ok (fs.put (parent ++ [name]) (.file bytes)) := by
  have hs : endsInSlash p = false := by simpa [endsInSlash, Path.IsOpen] using ho
  rw [write]
  exact if_neg (by simp [hs])

theorem write_ok (ho : p.IsOpen) (h : fs.write cwd p bytes = .ok fs') : ∃ place,
    fs.resolve cwd true p = .ok place ∧ fs' = fs.put place.location (.file bytes) ∧
      ∀ loc node, place = .found loc node → node.IsFile := by
  rw [write_open ho] at h
  cases hr : fs.resolve cwd true p with
  | error cause => rw [hr] at h; cases h
  | ok place =>
      rw [hr] at h
      refine ⟨place, rfl, ?_⟩
      cases place with
      | vacant parent name slashed =>
          cases h
          refine ⟨rfl, fun loc node he => ?_⟩
          cases he
      | found loc node =>
          cases node with
          | file old =>
              cases h
              refine ⟨rfl, fun loc node he => ?_⟩
              cases he
              exact ⟨old, rfl⟩
          | link target => cases h
          | directory => cases h

theorem copy_ok (h : fs.copy cwd source p = .ok fs') : ∃ cleared,
    fs.write cwd p .empty = .ok cleared ∧ (fs' = cleared ∨ ∃ bytes, cleared.write cwd p bytes = .ok fs') := by
  rw [copy] at h
  cases hf : fs.found cwd source with
  | error cause => rw [hf] at h; cases h
  | ok at_ =>
      obtain ⟨loc, node⟩ := at_
      rw [hf] at h
      cases node with
      | link target => cases h
      | directory => cases h
      | file old =>
          cases hw : fs.write cwd p .empty with
          | error cause => simp [hw, bind, Except.bind] at h
          | ok cleared =>
              simp only [hw, bind, Except.bind] at h
              refine ⟨cleared, rfl, ?_⟩
              split at h
              · exact .inr ⟨_, h⟩
              · exact .inl (Except.ok.inj h).symm

/-- What is written to a place comes under a name in a directory. -/
theorem WellFormed.parent_of_place (h : fs.WellFormed) {cur : Location} {l : List String}
    (hl : fs.Leads follow n cur l place) (hslash : ∀ s ∈ l, '/' ∉ s.toList)
    (hf : ∀ loc node, place = .found loc node → node.IsFile) :
    fs.at? place.location ≠ some .directory ∧
      ∃ dir name, place.location = dir ++ [name] ∧ fs.at? dir = some .directory ∧ IsName name := by
  cases place with
  | vacant dir name slashed =>
      obtain ⟨hd, -, hn⟩ := hl.vacancy
      exact ⟨by simp [Place.location, hn], dir, name, rfl, hd, hl.isName hslash⟩
  | found loc node =>
      obtain ⟨bytes, rfl⟩ := hf loc node rfl
      have hat := hl.at?_found
      have hne : loc ≠ [] := by
        rintro rfl
        cases hat
      exact ⟨by simp [Place.location, hat], h.exists_eq_append (hat ▸ rfl) hne⟩

namespace Confined

theorem directory (h : Confined base root fs₀ fs) : fs.at? root = some .directory := h.leads.at?_found

theorem reaches (h : Confined base root fs₀ fs) : fs.Reaches base root := h.leads.followed

theorem resolve_self (h : Confined base root fs₀ fs) (hp : p.Spells base) (cwd : Location) (follow : Bool) :
    fs.resolve cwd follow p = .ok (.found root .directory) := h.leads.resolve_self hp cwd follow

theorem location (h : Confined base root fs₀ fs) (hb : "" ∉ base) (hn : ∀ s ∈ names, IsName s)
    (hr : fs.resolveSteps follow [] (base ++ names) = .ok place) : place.location = root ++ names := by
  by_cases hnil : names = []
  · subst hnil
    rw [List.append_nil] at hr ⊢
    have hd : fs.resolveSteps follow [] base = .ok (.found root .directory) := by
      cases follow with
      | false => exact h.leads.walk_eq
      | true => exact h.reaches.walk_eq
    rw [hd] at hr
    cases hr
    rfl
  · obtain ⟨m, hm⟩ := h.reaches.walk_below follow hb hnil
    rw [hm] at hr
    exact (Leads.of_walk hr).location_names (fun y target hy _ => h.linkFree y target hy) fun s hs => (hn s hs).isStep

theorem not_empty (h : p.Spells (base ++ names)) : "" ∉ base :=
  fun hc => ne_empty_of_spells h (List.mem_append_left _ hc)

theorem prefix_locate (h : Confined base root fs₀ fs) (hp : Below base p)
    (hr : fs.locate cwd p = .ok place) : root <+: place.location := by
  obtain ⟨names, hn, hspells⟩ := hp
  rw [hspells.locate_eq] at hr
  exact ⟨names, (h.location (not_empty hspells) hn hr).symm⟩

theorem prefix_resolve (h : Confined base root fs₀ fs) (hp : Below base p) (ho : p.IsOpen)
    (hr : fs.resolve cwd follow p = .ok place) : root <+: place.location := by
  obtain ⟨names, hn, hspells⟩ := hp
  rw [hspells.resolve_open ho] at hr
  exact ⟨names, (h.location (not_empty hspells) hn hr).symm⟩

theorem put (h : Confined base root fs₀ fs) (hx : root <+: x) (hne : fs.at? x ≠ some .directory)
    (hparent : ∃ dir name, x = dir ++ [name] ∧ fs.at? dir = some .directory ∧ IsName name)
    (hnode : ∀ target, node ≠ .link target) : Confined base root fs₀ (fs.put x node) := by
  obtain ⟨dir, name, rfl, hd, hname⟩ := hparent
  have hself : (fs.put (dir ++ [name]) node).at? (dir ++ [name]) = some node := at?_put_self fs node (by simp)
  have hother : ∀ {y}, y ≠ dir ++ [name] → (fs.put (dir ++ [name]) node).at? y = fs.at? y :=
    fun hy => h.wellFormed.at?_put hne hy
  have hgrow : fs.Outgrows (fs.put (dir ++ [name]) node) := by
    intro y there hy hfile
    by_cases he : y = dir ++ [name]
    · subst he
      cases there with
      | file bytes => exact absurd ⟨bytes, rfl⟩ hfile
      | directory => exact absurd hy hne
      | link target => exact absurd hy (h.linkFree _ target hx)
    · rw [hother he, hy]
  refine ⟨h.wellFormed.put hd hname, ?_, ?_, ?_⟩
  · exact h.leads.mono hgrow
  · intro y target hy hl
    by_cases he : y = dir ++ [name]
    · subst he
      rw [hself] at hl
      exact hnode target (Option.some.inj hl)
    · exact h.linkFree y target hy (hother he ▸ hl)
  · intro y hy
    rw [hother (by rintro rfl; exact hy hx), h.within y hy]

theorem write (h : Confined base root fs₀ fs) (hp : Below base p) (ho : p.IsOpen)
    (hw : fs.write cwd p bytes = .ok fs') : Confined base root fs₀ fs' := by
  obtain ⟨place, hr, rfl, hf⟩ := write_ok ho hw
  have hpre := h.prefix_resolve hp ho hr
  obtain ⟨names, hn, hspells⟩ := hp
  rw [hspells.resolve_open ho] at hr
  obtain ⟨hne, hparent⟩ := h.wellFormed.parent_of_place (.of_walk hr)
    (fun s hs => not_slash_of_mem_stretches (hspells.stretches ▸ hs)) hf
  exact h.put hpre hne hparent nofun

theorem copy (h : Confined base root fs₀ fs) (hp : Below base p) (ho : p.IsOpen)
    (hc : fs.copy cwd source p = .ok fs') : Confined base root fs₀ fs' := by
  obtain ⟨cleared, hw, rfl | ⟨bytes, hw'⟩⟩ := copy_ok hc
  · exact h.write hp ho hw
  · exact (h.write hp ho hw).write hp ho hw'

theorem makeDirectory (h : Confined base root fs₀ fs) (hp : Below base p)
    (hm : fs.makeDirectory cwd p = .ok fs') : Confined base root fs₀ fs' := by
  obtain ⟨parent, name, slashed, hr, rfl⟩ := makeDirectory_eq_ok.1 hm
  have hpre := h.prefix_locate hp hr
  obtain ⟨names, hn, hspells⟩ := hp
  rw [hspells.locate_eq] at hr
  obtain ⟨hne, hparent⟩ := h.wellFormed.parent_of_place (.of_walk hr)
    (fun s hs => not_slash_of_mem_stretches (hspells.stretches ▸ hs)) nofun
  exact h.put hpre hne hparent nofun

theorem makeDirectory_self (h : Confined base root fs₀ fs) (hp : p.Spells base) (cwd : Location) :
    fs.makeDirectory cwd p = .error .taken := by
  have hroot : fs.resolveSteps false [] base = .ok (.found root .directory) := h.leads.walk_eq
  rw [FileSystem.makeDirectory, hp.locate_eq, hroot]
  rfl

/-- The directory itself is never made: only paths below it want for a level above. -/
theorem below_parent (h : Confined base root fs₀ fs) (hp : Below base p)
    (hm : fs.makeDirectory cwd p = .error .missing) (hq : p.parent? = some q) : Below base q := by
  obtain ⟨names, hn, hspells⟩ := hp
  rcases List.eq_nil_or_concat' names with rfl | ⟨names, s, rfl⟩
  · rw [List.append_nil] at hspells
    cases (h.makeDirectory_self hspells cwd).symm.trans hm
  · rw [← List.append_assoc] at hspells
    obtain ⟨q', hq', hs⟩ := hspells.parent
    obtain rfl : q' = q := Option.some.inj (hq'.symm.trans hq)
    exact ⟨names, fun s hs => hn s (List.mem_append_left _ hs), hs⟩

theorem makeDirectories (h : Confined base root fs₀ fs) (cwd : Location) (hp : Below base p) :
    Confined base root fs₀ (left (fs.makeDirectories cwd p)) :=
  makeLevels_keeps (fun _ _ _ h hp hm hq => h.below_parent hp hm hq)
    (fun _ _ _ h hp hm => h.makeDirectory hp hm) _ hp h

end Confined

end SiteTree.FileSystem
