import SiteTree.Proofs.Build.Layout
import SiteTree.Proofs.Build.PreviousOutput
import SiteTree.Proofs.FileSystem.SameOff
import SiteTree.Proofs.Walk.Fence

/-!
Clean builds side by side, up to where the rendering begins: the staging directories are made in both or in neither,
and the trees are then as much the same as they were.
-/

namespace SiteTree.Build

open SiteTree.Action FileSystem SiteTree.Path

variable {I : Location → Prop} {plan : Plan} {start start' : FileSystem} {w w' w₁ w₁' : World} {l : List String}
  {name : String} {dir x : Location}

/-- Two clean builds that are about to render. An output that is a file will keep both from publishing. -/
structure Prepared (I : Location → Prop) (start start' : FileSystem) (l : List String) (name : String) (dir : Location)
    (w w' : World) : Prop where
  staged : Staged start w.files l name dir
  staged' : Staged start' w'.files l name dir
  same : SameOff I w.files w'.files
  cwd : w'.cwd = w.cwd
  blocked : (∃ bytes, start'.at? (dir ++ [name]) = some (.file bytes)) ↔
    ∃ bytes, start.at? (dir ++ [name]) = some (.file bytes)

/-- The staging directory as it is before anything is rendered into it. -/
def stagingGround (l : List String) (name : String) (dir : Location) (w : World) : Ground :=
  ⟨l ++ [hiddenName name], dir ++ [hiddenName name], w.files⟩

theorem Staged.at?_root (h : Staged start w.files l name dir) (h' : Staged start' w'.files l name dir) (x : Location) :
    w'.files.at? (dir ++ [hiddenName name] ++ x) = w.files.at? (dir ++ [hiddenName name] ++ x) := by
  by_cases hx : x = []
  · rw [hx, List.append_nil, h.confined.directory, h'.confined.directory]
  · have hne : dir ++ [hiddenName name] ++ x ≠ dir ++ [hiddenName name] := by simpa using hx
    rw [h.empty _ (List.prefix_append _ _) hne, h'.empty _ (List.prefix_append _ _) hne]

theorem Prepared.beside (h : Prepared I start start' l name dir w w') :
    Beside (stagingGround l name dir w) (stagingGround l name dir w') I w w' :=
  ⟨⟨h.staged.confined, h.staged'.confined, h.staged.at?_root h.staged', h.same, .inl rfl⟩, h.cwd⟩

/-- If the parent is there, the staging directory has its name in it. -/
theorem Staged.eq_of_directory (h : Staged start w.files l name dir)
    (hd : w.files.at? (l ++ [hiddenName name]) = some .directory) : dir = l := by
  have hr : w.files.Reaches (l ++ [hiddenName name]) (dir ++ [hiddenName name]) := h.confined.reaches
  exact (List.append_inj' (hr.unique (h.confined.wellFormed.reaches_self hd)) rfl).1

section

variable (hw : w.files.WellFormed) (hp : Placed w.files plan.output l name)

include hw hp

theorem clear_open (ho : w.files.OpenTo l) (hfile : ∀ bytes, w.files.at? (l ++ [hiddenName name]) ≠ some (.file bytes)) :
    ∃ w₁, clear plan.staging w = .ok () w₁ ∧ w₁.cwd = w.cwd ∧ w₁.files.WellFormed ∧
      ∀ x, w₁.files.at? x = if l ++ [hiddenName name] <+: x then none else w.files.at? x := by
  obtain ⟨hspells, hopen⟩ : plan.staging.Spells (l ++ [hiddenName name]) ∧ plan.staging.IsOpen := hp.staging
  have hstep := hp.hidden.isStep
  have hc := clear_eq plan.staging w
  have hnothing : w.files.at? (l ++ [hiddenName name]) = none → ∀ x, w.files.at? x =
      if l ++ [hiddenName name] <+: x then none else w.files.at? x := by
    intro hn x
    split
    · next hx =>
      by_cases he : x = l ++ [hiddenName name]
      · rw [he, hn]
      · exact hw.at?_below (by simp [hn]) hx he
    · rfl
  by_cases hd : w.files.at? l = some .directory
  · have hr := hw.reaches_self hd
    cases hat : w.files.at? (l ++ [hiddenName name]) with
    | none =>
        rw [removeDirectory_vacant hr hspells hstep hat] at hc
        exact ⟨w, hc, rfl, hw, hnothing hat⟩
    | some node =>
        have hnode : ¬ node.IsFile := by
          rintro ⟨bytes, rfl⟩
          exact hfile bytes hat
        rw [removeDirectory_other hr hspells hstep hopen hat hnode] at hc
        refine ⟨_, hc, rfl, hw.remove _, fun x => ?_⟩
        split
        · next hx => exact at?_remove_below hx (by rintro rfl; simp at hx)
        · next hx => exact at?_remove_apart hx
  · have hmissing : w.files.resolve w.cwd false plan.staging = .error .missing := by
      rw [hspells.resolve_open hopen]
      exact ho.missing hw hd (fun s hs => (hp.names s hs).isStep) hp.hidden.1
    have hnone : w.files.at? (l ++ [hiddenName name]) = none := by
      by_contra hsome
      exact hd (hw.parent (Option.isSome_iff_ne_none.2 hsome))
    exact ⟨w, clear_missing hmissing, rfl, hw, hnothing hnone⟩

/-- If nothing is in the way, the staging directory is made, and it is empty. -/
theorem prepare_open (ho : w.files.OpenTo l) (hfile : ∀ bytes, w.files.at? (l ++ [hiddenName name]) ≠ some (.file bytes)) :
    ∃ w₁, prepare plan true w = .ok () w₁ ∧ w₁.cwd = w.cwd ∧ Staged w.files w₁.files l name l ∧
      ∀ x, w₁.files.at? x = if x <+: l ++ [hiddenName name] then some .directory
        else if l ++ [hiddenName name] <+: x then none else w.files.at? x := by
  obtain ⟨w₀, hclear, hcwd, hw₀, hat⟩ := clear_open hw hp ho hfile
  have hopen : w₀.files.OpenTo (l ++ [hiddenName name]) := by
    refine OpenTo.child (fun y hy => ?_) (.inl (by rw [hat, if_pos List.prefix_rfl]))
    rw [hat, if_neg (not_append_isPrefix_of_isPrefix hy)]
    exact ho y hy
  obtain ⟨fs, hmake, -, hmade⟩ := hopen.makeDirectories hw₀ w₀.cwd hp.staging.1 (hp.names_append hp.hidden)
  have hrun : prepare plan true w = _ := prepare_of_clear hclear hmake
  refine ⟨_, hrun, hcwd, ?_, fun x => ?_⟩
  · rcases prepare_cases hw hp w.cwd with ⟨w₁, h, ⟨dir, hst⟩, -⟩ | ⟨e, w₁, h, -⟩
    · cases hrun.symm.trans h
      have hself : fs.at? (l ++ [hiddenName name]) = some .directory := by rw [hmade, if_pos List.prefix_rfl]
      exact hst.eq_of_directory hself ▸ hst
    · cases hrun.symm.trans h
  · dsimp only
    rw [hmade]
    split
    · rfl
    · exact hat x

end

/-- Where nothing is in the way in either tree, both staging directories are made. The levels above them may be there
in one tree only. -/
theorem prepare_open_alike (hw : w.files.WellFormed) (hw' : w'.files.WellFormed) (hcwd : w'.cwd = w.cwd)
    (hp : Placed w.files plan.output l name) (hp' : Placed w'.files plan.output l name)
    (ho : w.files.OpenTo l) (ho' : w'.files.OpenTo l)
    (hfile : ∀ bytes, w.files.at? (l ++ [hiddenName name]) ≠ some (.file bytes))
    (hfile' : ∀ bytes, w'.files.at? (l ++ [hiddenName name]) ≠ some (.file bytes))
    (hsame : ∀ x, ¬ I x → x <+: l ∨ w'.files.at? x = w.files.at? x)
    (hblocked : (∃ bytes, w'.files.at? (l ++ [name]) = some (.file bytes)) ↔
      ∃ bytes, w.files.at? (l ++ [name]) = some (.file bytes)) :
    EndAlike True (fun w₁ w₁' => ∃ dir, Prepared I w.files w'.files l name dir w₁ w₁') (fun _ _ => True)
      (prepare plan true w) (prepare plan true w') := by
  obtain ⟨w₁, hrun, hcwd₁, hst, hat⟩ := prepare_open hw hp ho hfile
  obtain ⟨w₁', hrun', hcwd₁', hst', hat'⟩ := prepare_open hw' hp' ho' hfile'
  rw [hrun, hrun']
  refine .ok trivial ⟨l, hst, hst', fun x hx => ?_, by rw [hcwd₁, hcwd₁', hcwd], hblocked⟩
  rw [hat, hat']
  split
  · rfl
  · next hup =>
    split
    · rfl
    · exact (hsame x hx).resolve_left fun hc => hup (hc.trans (List.prefix_append _ _))

theorem prepare_after (h : clear plan.staging w = .ok () w) :
    ((prepare plan true).after w).files = left (w.files.makeDirectories w.cwd plan.staging) := by
  have hfiles : ((makeDirectories plan.staging).after w).files = left (w.files.makeDirectories w.cwd plan.staging) :=
    changePart_files _ _ w
  rw [prepare_true, after_bind_ok h]
  cases hm : makeDirectories plan.staging w with
  | ok u w₁ =>
      rw [after_bind_ok hm, ← hfiles, after_ok hm]
      rfl
  | error e w₁ => rw [after_bind_error hm, ← hfiles, after_error hm]

/-- Two trees that have each got a staging directory past the places have got it at the same location. -/
theorem prepared_of_staged {dir' : Location} (hst : Staged w.files w₁.files l name dir)
    (hst' : Staged w'.files w₁'.files l name dir') (hsame : SameOff I w₁.files w₁'.files) (hcwd : w₁'.cwd = w₁.cwd)
    (hI : ∀ x ∈ w₁.files.way (maxLinks + 1) [] l, ¬ I x) (hnone : ∀ d, ¬ w.files.Reaches l d)
    (hnone' : ∀ d, ¬ w'.files.Reaches l d) (hw : w.files.WellFormed) (hw' : w'.files.WellFormed) :
    Prepared I w.files w'.files l name dir w₁ w₁' := by
  have hr : w₁.files.Reaches l dir := hst.reaches fun _ _ _ => rfl
  have hr' : w₁'.files.Reaches l dir' := hst'.reaches fun _ _ _ => rfl
  obtain rfl : dir = dir' := hr.unique ((reaches_congr hsame hI).1 hr')
  have hvacant := (hst.before.resolve_left fun h => hnone dir h).2
  have hvacant' := (hst'.before.resolve_left fun h => hnone' dir h).2
  refine ⟨hst, hst', hsame, hcwd, ?_⟩
  rw [at?_below_vacant hw hvacant, at?_below_vacant hw' hvacant']

/-- Where nothing stands at the staging directory, preparing makes the levels that lead to it, in both trees alike. -/
theorem prepare_missing_alike (hT : Alike I w.files w'.files) (hcwd : w'.cwd = w.cwd)
    (hspells : plan.staging.Spells l) (hopen : plan.staging.IsOpen)
    (hres : w.files.resolve w.cwd false plan.staging = .error .missing)
    (hres' : w'.files.resolve w'.cwd false plan.staging = .error .missing)
    (hI : Avoids I ((prepare plan true).after w).files w.cwd plan.staging) :
    EndAlike True (fun w₁ w₁' => Alike I w₁.files w₁'.files ∧ w₁'.cwd = w₁.cwd) (fun _ _ => True)
      (prepare plan true w) (prepare plan true w') := by
  have hlevels : Likewise (fun e e' => e.1 = e'.1) (Alike I) (w.files.makeDirectories w.cwd plan.staging)
      (w'.files.makeDirectories w'.cwd plan.staging) := by
    rw [hcwd]
    refine hT.makeLevels hspells fun x hx => hI x ?_
    rw [wayTo_of_open hspells hopen, prepare_after (clear_missing hres)]
    exact hx
  have hmake : EndAlike True (fun w₁ w₁' => Alike I w₁.files w₁'.files ∧ w₁'.cwd = w₁.cwd) (fun _ _ => True)
      (makeDirectories plan.staging w) (makeDirectories plan.staging w') :=
    changePart_alike hlevels (fun _ => rfl) fun _ _ hT => ⟨hT, hcwd⟩
  rw [prepare_true, bind_ok (clear_missing hres), bind_ok (clear_missing hres')]
  exact hmake.bind fun _ _ _ _ _ _ _ hT => .ok trivial hT

/-- Where the parent leads nowhere, the levels above the staging directory are made past the places, or not at all. -/
theorem prepare_unreached_alike (hw : w.files.WellFormed) (hw' : w'.files.WellFormed)
    (hsame : SameOff I w.files w'.files) (hcwd : w'.cwd = w.cwd) (hp : Placed w.files plan.output l name)
    (hp' : Placed w'.files plan.output l name) (hnone : ∀ d, ¬ w.files.Reaches l d)
    (hI : Avoids I ((prepare plan true).after w).files w.cwd plan.staging) :
    EndAlike True (fun w₁ w₁' => ∃ dir, Prepared I w.files w'.files l name dir w₁ w₁') (fun _ _ => True)
      (prepare plan true w) (prepare plan true w') := by
  obtain ⟨hspells, hopen⟩ : plan.staging.Spells (l ++ [hiddenName name]) ∧ plan.staging.IsOpen := hp.staging
  have hparent : ∀ {fs : FileSystem}, Avoids I fs w.cwd plan.staging → ∀ x ∈ fs.way (maxLinks + 1) [] l, ¬ I x := by
    intro fs havoids x hx
    have hlong := way_append (List.cons_ne_nil (hiddenName name) []) hx
    rw [hp.filter] at hlong
    exact havoids x (mem_wayTo_of_spells hspells hlong)
  obtain ⟨cause, hres⟩ := resolve_of_unreached hspells hp.hidden.isStep hnone w.cwd false
  by_cases hc : cause = .missing
  · subst hc
    have hgrows : w.files.Grows ((prepare plan true).after w).files :=
      prepare_after (clear_missing hres) ▸ (makeDirectories_grows hw _ _).2
    have hstart : Avoids I w.files w.cwd plan.staging := by
      intro x hx
      rw [wayTo_of_open hspells hopen] at hx
      refine hI x ?_
      rw [wayTo_of_open hspells hopen]
      exact hgrows.way hx
    have hres' : w'.files.resolve w'.cwd false plan.staging = .error .missing := by
      rw [hcwd, resolve_congr hsame hstart, hres]
    have hnone' : ∀ d, ¬ w'.files.Reaches l d := fun d hd => hnone d ((reaches_congr hsame (hparent hstart)).1 hd)
    have hrun := prepare_missing_alike ⟨hw, hw', hsame⟩ hcwd hspells hopen hres hres' hI
    refine hrun.mono fun _ _ w₁ w₁' h h' _ hT => ⟨trivial, ?_⟩
    rw [after_ok h] at hI
    rcases prepare_unreached hw hp w.cwd hnone with ⟨w₂, h₂, ⟨dir, hst⟩, -⟩ | ⟨e, w₂, h₂, -⟩
    · cases h.symm.trans h₂
      rcases prepare_unreached hw' hp' w.cwd hnone' with ⟨w₂', h₂', ⟨dir', hst'⟩, -⟩ | ⟨e', w₂', h₂', -⟩
      · cases h'.symm.trans h₂'
        exact ⟨dir, prepared_of_staged hst hst' hT.1.same hT.2 (hparent hI) hnone hnone' hw hw'⟩
      · cases h'.symm.trans h₂'
    · cases h.symm.trans h₂
  · have hclear := clear_refused hres hc
    have hafter : (prepare plan true).after w = w := after_error (bind_error hclear)
    rw [hafter] at hI
    have hclear' := clear_refused (w := w') (by rw [hcwd, resolve_congr hsame hI, hres]) hc
    rw [prepare_true, bind_error hclear, bind_error hclear']
    exact .error fun _ => rfl

end SiteTree.Build
