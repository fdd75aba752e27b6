import SiteTree.Proofs.Asset.Confined
import SiteTree.Proofs.Path.Resolved
import SiteTree.Proofs.Walk.Meets

/-!
The files that a walk hands over, with their targets, whatever is done to them: which calls a walk
makes, how the names on the way make up a target, and when that is below the destination.
-/

namespace SiteTree.Walk

open SiteTree.Action FileSystem EntryName SiteTree.Path

/-- What is done to a file of the source, given its target. -/
abbrev Emission := Options → Path → Path → Action Unit

/-- Visits an entry, with any way to enter its expansions. -/
def visitBy (limits : Limits) (enter : Entry → Expansion → Action Unit) (options : Options) (entry : Entry) :
    Action Unit := do
  if limits.skip.any (·.alike entry.path) then
    Action.debug .walk ("Skipping " ++ entry.path.text ++ ": build output")
  else
    let relative := entry.path.relativeTo options.sourceRoot
    if limits.ignore.hides relative then
      Action.debug .walk ("Skipping " ++ relative.text ++ ": ignored")
    else
      let expansions ← Action.ofExcept (expand entry.name options.scope)
      tellPruned entry.name expansions
      expansions.forM (enter entry)

def explore (limits : Limits) (enter : Entry → Expansion → Action Unit) (options : Options) (dir dest : Path) :
    Action Unit :=
  listing options dir dest >>= fun entries => entries.forM (visitBy limits enter options)

def enterWith (emit : Emission) (descend : Options → Path → Path → Action Unit) (options : Options) (dest : Path)
    (entry : Entry) (e : Expansion) : Action Unit :=
  let inner := { options with scope := e.scope }
  match entry.isDirectory, e.form with
  | true, .loop => descend inner entry.path dest
  | true, _ => descend inner entry.path (dest.child e.name)
  | false, .loop => throw (.loop entry.name .onFile)
  | false, _ => emit inner entry.path (dest.child e.name)

/-- The walk, for any emission. -/
def renderWith (emit : Emission) (limits : Limits) : Nat → Options → Path → Path → Action Unit
  | 0, _, dir, _ => throw (.read dir .tooDeep)
  | n + 1, options, dir, dest =>
    explore limits (enterWith emit (renderWith emit limits n) options dest) options dir dest

/-- A call of the emission, with the entries and the expansions that have led to it. -/
structure Handover where
  way : List (Entry × Expansion)
  options : Options
  source : Path
  target : Path
  world : World

namespace Handover

def under (entry : Entry) (e : Expansion) (x : Handover) : Handover := { x with way := (entry, e) :: x.way }

/-- The names that the way has put into the target. Loops put in none. -/
def trail (x : Handover) : List String := (x.way.filter (·.2.form ≠ .loop)).map (·.2.name)

theorem trail_under (entry : Entry) (e : Expansion) (x : Handover) :
    (x.under entry e).trail = if e.form = .loop then x.trail else e.name :: x.trail := by
  by_cases h : e.form = .loop <;> simp [trail, under, h]

/-- The names that lead to the file in the source. -/
def names (x : Handover) : List String := x.way.map (·.1.name)

/-- Every expansion on the way is one of its entry's, in the scope of the directory before it. -/
def Along : Scope → List (Entry × Expansion) → Prop
  | _, [] => True
  | scope, (entry, e) :: way =>
    (∃ expansions, expand entry.name scope = .ok expansions ∧ e ∈ expansions) ∧ Along e.scope way

end Handover

/-- The expansions that are entered in a directory, each with its entry and its world. -/
def enterings (limits : Limits) (enter : Entry → Expansion → Action Unit) (options : Options) (dir dest : Path)
    (w : World) : List (Entry × Expansion × World) :=
  match listing options dir dest w with
  | .error _ _ => []
  | .ok entries w₁ => (arrivals (visitBy limits enter options) entries w₁).flatMap fun (entry, w₂) =>
    match expansions? limits options entry with
    | none => []
    | some expansions => (arrivals (enter entry) expansions ((tellPruned entry.name expansions).after w₂)).map
      fun (e, w₃) => (entry, e, w₃)

/-- The calls of the emission that a walk makes, in their order. -/
def handed (emit : Emission) (limits : Limits) : Nat → Options → Path → Path → World → List Handover
  | 0, _, _, _, _ => []
  | n + 1, options, dir, dest, w =>
    (enterings limits (enterWith emit (renderWith emit limits n) options dest) options dir dest w).flatMap
      fun (entry, e, w') =>
        let inner := { options with scope := e.scope }
        (if entry.isDirectory then handed emit limits n inner entry.path (innerDest dest e) w'
        else if e.form = .loop then []
        else [⟨[], inner, entry.path, dest.child e.name, w'⟩]).map (·.under entry e)

variable {emit emit' : Emission} {limits : Limits} {n : Nat} {options : Options} {dir dest : Path}
  {w w' w₁ : World} {entry : Entry} {e : Expansion} {expansions : List Expansion} {x : Handover}
  {enter enter' : Entry → Expansion → Action Unit} {cause : Failure}

/-- The walk of a build hands its files to the chain, or copies them. -/
theorem renderWith_emit (limits : Limits) (n : Nat) (options : Options) (dir dest : Path) :
    renderWith Walk.emit limits n options dir dest = render limits n options dir dest := by
  induction n generalizing options dir dest with
  | zero => rfl
  | succ n ih =>
      have hrest : renderWith Walk.emit limits n = render limits n := by
        funext options dir dest
        exact ih options dir dest
      rw [render_succ, renderWith, hrest]
      rfl

theorem tellPruned_ok (name : String) (expansions : List Expansion) (w : World) :
    tellPruned name expansions w = .ok () ((tellPruned name expansions).after w) := by
  unfold tellPruned
  generalize loop? name = loop
  cases loop <;> cases expansions <;> rfl

theorem tellPruned_tells (name : String) (expansions : List Expansion) (w : World) :
    ∃ events, (tellPruned name expansions).after w = { w with events := events } := by
  unfold tellPruned
  split
  · exact ⟨_, rfl⟩
  · exact ⟨_, rfl⟩

theorem visitBy_none (h : expansions? limits options entry = none) (enter enter' : Entry → Expansion → Action Unit) :
    visitBy limits enter options entry w = visitBy limits enter' options entry w := by
  rw [expansions?] at h
  rw [visitBy, visitBy]
  cases hskip : limits.skip.any (·.alike entry.path) with
  | true => rfl
  | false =>
      cases hhides : limits.ignore.hides (entry.path.relativeTo options.sourceRoot) with
      | true => simp only [hhides]; rfl
      | false =>
          simp only [hskip, hhides] at h ⊢
          cases hexp : expand entry.name options.scope with
          | error cause => rfl
          | ok expansions =>
              rw [hexp] at h
              cases h

theorem visitBy_some (h : expansions? limits options entry = some expansions) : visitBy limits enter options entry w =
    expansions.forM (enter entry) ((tellPruned entry.name expansions).after w) := by
  obtain ⟨hskip, hhides, hexp⟩ := expansions?_eq_some.1 h
  rw [visitBy, hexp]
  simp only [hskip, hhides]
  exact bind_ok (tellPruned_ok entry.name expansions w)

/-- An expansion that is entered, by the steps that lead to it. -/
theorem mem_enterings : (entry, e, w') ∈ enterings limits enter options dir dest w ↔
    ∃ entries expansions w₁ w₂, listing options dir dest w = .ok entries w₁ ∧
      Action.Comes (visitBy limits enter options) entries w₁ entry w₂ ∧
      expansions? limits options entry = some expansions ∧
      Action.Comes (enter entry) expansions ((tellPruned entry.name expansions).after w₂) e w' := by
  rw [enterings]
  constructor
  · intro h
    cases hl : listing options dir dest w with
    | error cause w₁ => simp [hl] at h
    | ok entries w₁ =>
        rw [hl] at h
        obtain ⟨⟨entry', w₂⟩, hv, h⟩ := List.mem_flatMap.1 h
        dsimp only at h
        cases hx : expansions? limits options entry' with
        | none => simp [hx] at h
        | some expansions =>
            rw [hx] at h
            obtain ⟨⟨e', w₃⟩, he, heq⟩ := List.mem_map.1 h
            cases heq
            exact ⟨entries, expansions, w₁, w₂, rfl, mem_arrivals.1 hv, hx, mem_arrivals.1 he⟩
  · rintro ⟨entries, expansions, w₁, w₂, hl, hv, hx, he⟩
    rw [hl]
    refine List.mem_flatMap.2 ⟨(entry, w₂), mem_arrivals.2 hv, ?_⟩
    dsimp only
    rw [hx]
    exact List.mem_map.2 ⟨(e, w'), mem_arrivals.2 he, rfl⟩

/-- What an entered expansion is: one of an entry that the directory lists. -/
theorem entering_ok (h : (entry, e, w') ∈ enterings limits enter options dir dest w) :
    entry.path = dir.child entry.name ∧ ∃ expansions, expand entry.name options.scope = .ok expansions ∧
      e ∈ expansions := by
  obtain ⟨entries, expansions, w₁, w₂, hl, ⟨before, rest, rfl, -⟩, hx, ⟨before', rest', rfl, -⟩⟩ := mem_enterings.1 h
  obtain ⟨u, w₃, -, hentries⟩ := bind_eq_ok hl
  refine ⟨((Asset.entriesOf_ok hentries).2 entry (by simp)).1, _, (expansions?_eq_some.1 hx).2.2, by simp⟩

/-- In a directory, only what is done to the expansions that are entered matters. -/
theorem explore_congr (h : ∀ entry e w', (entry, e, w') ∈ enterings limits enter options dir dest w →
      enter entry e w' = enter' entry e w') :
    explore limits enter options dir dest w = explore limits enter' options dir dest w := by
  rw [explore, explore]
  cases hl : listing options dir dest w with
  | error cause w₁ => rw [bind_error hl, bind_error hl]
  | ok entries w₁ =>
      rw [bind_ok hl, bind_ok hl]
      refine forM_congr fun entry w₂ hv => ?_
      cases hx : expansions? limits options entry with
      | none => exact visitBy_none hx enter enter'
      | some expansions =>
          rw [visitBy_some hx, visitBy_some hx]
          exact forM_congr fun e w₃ he =>
            h entry e w₃ (mem_enterings.2 ⟨entries, expansions, w₁, w₂, hl, hv, hx, he⟩)

theorem explore_error (h : (entry, e, w₁) ∈ enterings limits enter options dir dest w)
    (he : enter entry e w₁ = .error cause w') : explore limits enter options dir dest w = .error cause w' := by
  obtain ⟨entries, expansions, w₂, w₃, hl, hv, hx, hcome⟩ := mem_enterings.1 h
  rw [explore, bind_ok hl]
  refine hv.error ?_
  rw [visitBy_some hx]
  exact hcome.error he

theorem enterWith_directory {descend : Options → Path → Path → Action Unit} (hd : entry.isDirectory = true) :
    enterWith emit descend options dest entry e =
      descend { options with scope := e.scope } entry.path (innerDest dest e) := by
  obtain ⟨form, name, scope⟩ := e
  cases form <;> simp [enterWith, innerDest, hd]

theorem enterWith_file {descend : Options → Path → Path → Action Unit} (hd : entry.isDirectory = false) :
    enterWith emit descend options dest entry e = if e.form = .loop then throw (.loop entry.name .onFile)
      else emit { options with scope := e.scope } entry.path (dest.child e.name) := by
  obtain ⟨form, name, scope⟩ := e
  cases form <;> simp [enterWith, hd]

/-- A file is handed over by the directory that it is in, or further below. -/
theorem mem_handed_succ : x ∈ handed emit limits (n + 1) options dir dest w ↔ ∃ entry e w' y,
    (entry, e, w') ∈ enterings limits (enterWith emit (renderWith emit limits n) options dest) options dir dest w ∧
      x = y.under entry e ∧ if entry.isDirectory then
        y ∈ handed emit limits n { options with scope := e.scope } entry.path (innerDest dest e) w'
      else e.form ≠ .loop ∧ y = ⟨[], { options with scope := e.scope }, entry.path, dest.child e.name, w'⟩ := by
  rw [handed, List.mem_flatMap]
  constructor
  · rintro ⟨⟨entry, e, w'⟩, hc, h⟩
    obtain ⟨y, hy, rfl⟩ := List.mem_map.1 h
    refine ⟨entry, e, w', y, hc, rfl, ?_⟩
    split
    · next hd => simpa [hd] using hy
    · next hd => simpa [hd] using hy
  · rintro ⟨entry, e, w', y, hc, rfl, hy⟩
    refine ⟨(entry, e, w'), hc, List.mem_map.2 ⟨y, ?_, rfl⟩⟩
    split at hy
    · next hd => simpa [hd] using hy
    · next hd => simpa [hd] using hy

/-- A walk makes no other calls of the emission than those: it depends on nothing else of it. -/
theorem renderWith_congr (h : ∀ x ∈ handed emit limits n options dir dest w,
      emit x.options x.source x.target x.world = emit' x.options x.source x.target x.world) :
    renderWith emit limits n options dir dest w = renderWith emit' limits n options dir dest w := by
  induction n generalizing options dir dest w with
  | zero => rfl
  | succ n ih =>
      rw [renderWith, renderWith]
      refine explore_congr fun entry e w' hc => ?_
      cases hd : entry.isDirectory with
      | true =>
          rw [enterWith_directory hd, enterWith_directory hd]
          refine ih fun y hy => ?_
          exact h (y.under entry e) (mem_handed_succ.2 ⟨entry, e, w', y, hc, rfl, by simpa [hd] using hy⟩)
      | false =>
          rw [enterWith_file hd, enterWith_file hd]
          split
          · rfl
          · next hform =>
            exact h (Handover.under entry e ⟨[], { options with scope := e.scope }, entry.path, dest.child e.name, w'⟩)
              (mem_handed_succ.2 ⟨entry, e, w', _, hc, rfl, by simp [hd, hform]⟩)

/-- Each of the calls is really made: the walk fails where it fails. -/
theorem renderWith_error (hx : x ∈ handed emit limits n options dir dest w)
    (he : emit x.options x.source x.target x.world = .error cause w') :
    renderWith emit limits n options dir dest w = .error cause w' := by
  induction n generalizing options dir dest w x with
  | zero => cases hx
  | succ n ih =>
      obtain ⟨entry, e, w₁, y, hc, rfl, hy⟩ := mem_handed_succ.1 hx
      rw [renderWith]
      refine explore_error hc ?_
      split at hy
      · next hd =>
        rw [enterWith_directory hd]
        exact ih hy he
      · next hd =>
        obtain ⟨hform, rfl⟩ := hy
        rw [enterWith_file (by simpa using hd), if_neg hform]
        exact he

/-- How the way of a file gives its source and its target. -/
structure Handover.Leads (options : Options) (dir dest : Path) (x : Handover) : Prop where
  along : Along options.scope x.way
  source : x.source = dir.descend x.names
  target : x.target = dest.descend x.trail
  named : x.trail ≠ []
  kept : x.options = { options with scope := x.options.scope }

theorem handed_leads (hx : x ∈ handed emit limits n options dir dest w) : x.Leads options dir dest := by
  induction n generalizing options dir dest w x with
  | zero => cases hx
  | succ n ih =>
      obtain ⟨entry, e, w', y, hc, rfl, hy⟩ := mem_handed_succ.1 hx
      obtain ⟨hpath, hexp⟩ := entering_ok hc
      split at hy
      · next hd =>
        obtain ⟨halong, hsource, htarget, hnamed, hkept⟩ := ih hy
        have hdest : (innerDest dest e).descend y.trail = dest.descend (y.under entry e).trail := by
          rw [innerDest, Handover.trail_under]
          split <;> rfl
        refine ⟨⟨hexp, halong⟩, ?_, htarget.trans hdest, ?_, hkept⟩
        · rw [hpath] at hsource
          exact hsource
        · rw [Handover.trail_under]
          split
          · exact hnamed
          · exact List.cons_ne_nil _ _
      · next hd =>
        obtain ⟨hform, rfl⟩ := hy
        have htrail : (Handover.under entry e ⟨[], { options with scope := e.scope }, entry.path,
            dest.child e.name, w'⟩).trail = [e.name] := by
          rw [Handover.trail_under, if_neg hform]
          rfl
        exact ⟨⟨hexp, trivial⟩, hpath, by rw [htrail]; rfl, by simp [htrail], rfl⟩

/-- The target of a file is made of the names that the entries on its way expand to. It is below the destination if
they stay below it on the way, and otherwise only by the destination's own name. -/
theorem handed_confined (hx : x ∈ handed emit limits n options dir dest w) :
    x.Leads options dir dest ∧ (Confining x.trail → ∀ cwd, LiesBelow cwd dest x.target) ∧
      (∀ cwd d s, dest.resolved cwd = d ++ [s] → s ∉ spelled x.trail →
        (LiesBelow cwd dest x.target ↔ Confining x.trail)) ∧
      ((∀ s ∈ x.trail, IsName s) → Confining x.trail ∧
        ∀ cwd, x.target.resolved cwd = dest.resolved cwd ++ x.trail) := by
  have hleads := handed_leads hx
  rw [hleads.target]
  refine ⟨hleads, fun hc cwd => hc.liesBelow cwd dest, fun cwd d s hd hs => ?_, fun hn => ?_⟩
  · exact ⟨confining_of_liesBelow hd hs, fun hc => hc.liesBelow cwd dest⟩
  · exact ⟨confining_names hn hleads.named, fun cwd => resolved_descend_names hn cwd dest⟩

/-- Options of a walk that copies every file. -/
def copying (scope : Scope) : Options := ⟨⟨"src"⟩, ⟨"out"⟩, scope, [], [], false, false⟩

/-- A file below a directory for each group, and below one whose name is another value. -/
def groups : World :=
  ⟨⟨[(["src", "[g of groups]", "[g]", "[v]", "f.txt"], .file "x".toUTF8), (["src", "[g of groups]", "[g]", "[v]"], .directory),
    (["src", "[g of groups]", "[g]"], .directory), (["src", "[g of groups]"], .directory), (["src"], .directory)]⟩,
    [], []⟩

def twoGroups : Scope := .ofPairs [("groups", .list [.text "a", .text "b"]), ("v", .text "../c/./d")]

/-- Double dots do no harm as long as they undo what the names before them have done. -/
theorem groups_below : ∃ x ∈ handed Walk.emit ⟨.none, []⟩ 5 (copying twoGroups) ⟨"src"⟩ ⟨"out"⟩ groups,
    x.trail = ["b", "../c/./d", "f.txt"] ∧ LiesBelow [] ⟨"out"⟩ x.target := by
  obtain ⟨x, hx, htrail⟩ := List.any_eq_true.1 (show (handed Walk.emit ⟨.none, []⟩ 5 (copying twoGroups) ⟨"src"⟩
    ⟨"out"⟩ groups).any (·.trail == ["b", "../c/./d", "f.txt"]) = true by decide +kernel)
  replace htrail : x.trail = ["b", "../c/./d", "f.txt"] := by simpa using htrail
  exact ⟨x, hx, htrail, (handed_confined hx).2.1 (htrail ▸ by decide +kernel) []⟩

/-- A file that is named by a value. -/
def named : World := ⟨⟨[(["src", "[v]"], .file "x".toUTF8), (["src"], .directory)]⟩, [], []⟩

def climbing : Scope := .ofPairs [("v", .text "../a")]

/-- A value with double dots puts a file outside the destination, and the walk succeeds. -/
theorem named_above : (∃ x ∈ handed Walk.emit ⟨.none, []⟩ 1 (copying climbing) ⟨"src"⟩ ⟨"out"⟩ named,
      ¬ LiesBelow [] ⟨"out"⟩ x.target) ∧
    ∃ w', render ⟨.none, []⟩ 1 (copying climbing) ⟨"src"⟩ ⟨"out"⟩ named = .ok () w' ∧
      w'.files.at? ["a"] = some (.file "x".toUTF8) := by
  constructor
  · obtain ⟨x, hx, habove⟩ := List.any_eq_true.1 (show (handed Walk.emit ⟨.none, []⟩ 1 (copying climbing) ⟨"src"⟩ ⟨"out"⟩
      named).any (fun x => !decide (LiesBelow [] ⟨"out"⟩ x.target)) = true by decide +kernel)
    exact ⟨x, hx, by simpa using habove⟩
  · obtain ⟨u, w', hrun, hfile⟩ := yields_iff.1 (show yields (render ⟨.none, []⟩ 1 (copying climbing) ⟨"src"⟩ ⟨"out"⟩) named
      (fun _ w' => decide (w'.files.at? ["a"] = some (.file "x".toUTF8))) = true by decide +kernel)
    exact ⟨w', hrun, by simpa using hfile⟩

end SiteTree.Walk
