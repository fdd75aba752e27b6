import SiteTree.Proofs.Build.Location
import SiteTree.Proofs.FileSystem.Removal

/-!
The parts of a build: what its checks tell, that rendering and renaming change nothing but the
directory that is rendered into, and what clearing and publishing come to.
-/

namespace SiteTree.Build

open SiteTree.Action FileSystem SiteTree.Path

variable {fs₀ : FileSystem} {base : List String} {root : Location} {options : Options}
    {plan : Plan} {w w' : World}
  {source output p : Path}

/-- Every name that the build puts into a target is plain. -/
def ExpandsPlain (options : Options) (w : World) : Prop :=
  ∀ plan w₁ w₂, validate options w = .ok plan w₁ → prepare plan options.clean w₁ = .ok () w₂ →
    Walk.MeetsPlain (plan.limits options.clean) maxNesting (plan.inner options) plan.source
      (plan.root options.clean) w₂

instance (options : Options) (w : World) : Decidable (ExpandsPlain options w) :=
  match hv : validate options w with
  | .error _ _ => isTrue fun plan w₁ w₂ h => by cases hv.symm.trans h
  | .ok plan w₁ =>
    match hp : prepare plan options.clean w₁ with
    | .error _ _ => isTrue fun plan' w₁' w₂ h h' => by cases hv.symm.trans h; cases hp.symm.trans h'
    | .ok () w₂ =>
        decidable_of_iff (Walk.MeetsPlain (plan.limits options.clean) maxNesting (plan.inner options)
        plan.source (plan.root options.clean) w₂)
        ⟨fun hm plan' w₁' w₂' h h' => by cases hv.symm.trans h; cases hp.symm.trans h'; exact hm,
          fun h => h plan w₁ w₂ hv hp⟩

/-- A clean build with every link, which renames its assets. -/
def cleanBuild (source output : String) : Options :=
  ⟨⟨source⟩, ⟨output⟩, .empty, [], [.page, .stylesheet], true, true⟩

theorem sourceFor_keeps {J : FileSystem → Prop} (source : Path) : Keeps J (sourceFor source) := by
  refine (Keeps.look _ _).bind fun resolved => (Keeps.check _).bind fun isDir => ?_
  split
  · exact Keeps.pure _
  · exact Keeps.throw _

theorem outputFor_keeps {J : FileSystem → Prop} (output source : Path) :
    Keeps J (outputFor output source) := by
  refine (Keeps.look _ _).bind fun resolved => ?_
  split
  · exact Keeps.throw _
  · exact Keeps.pure _

theorem filterFor_keeps {J : FileSystem → Prop} (source : Path) (patterns : List String) :
    Keeps J (filterFor source patterns) := by
  have hown : Keeps J (ownPatterns (source.child Ignore.fileName)) := by
    refine Keeps.bind (fun _ hw => hw) fun w => ?_
    split
    · exact Keeps.pure _
    · exact (Keeps.debug _ _).bind fun _ => Keeps.pure _
    · exact Keeps.throw _
  refine hown.bind fun own => ?_
  cases Ignore.ofPatterns (Ignore.defaults ++ own ++ patterns) with
  | ok ignore => exact Keeps.pure _
  | error e => exact Keeps.throw _

theorem validate_keeps {J : FileSystem → Prop} (options : Options) : Keeps J (validate options) :=
  (sourceFor_keeps _).bind fun source => (outputFor_keeps _ source).bind fun _ =>
    (filterFor_keeps source _).bind fun _ => Keeps.pure _

theorem sourceFor_ok (h : sourceFor source w = .ok p w') : w' = w ∧ w.files.canonical w.cwd source = .ok p ∧
    w.files.isDirectory w.cwd p = true := by
  obtain ⟨resolved, w₁, hl, h₁⟩ := bind_eq_ok h
  obtain ⟨rfl, hcanonical⟩ := look_ok hl
  obtain ⟨isDir, w₂, hc, h₂⟩ := bind_eq_ok h₁
  cases hc
  split at h₂
  · next hd => cases h₂; exact ⟨rfl, hcanonical, hd⟩
  · cases h₂

theorem outputFor_ok (h : outputFor output source w = .ok p w') :
    w' = w ∧ outputLocation w.files w.cwd output = .ok p ∧ source.startsWith p = false := by
  obtain ⟨resolved, w₁, hl, h₁⟩ := bind_eq_ok h
  obtain ⟨rfl, hlocation⟩ := look_ok hl
  split at h₁
  · cases h₁
  · next hs => cases h₁; exact ⟨rfl, hlocation, by simpa using hs⟩

theorem validate_ok (h : validate options w = .ok plan w') :
    w'.files = w.files ∧ w.files.canonical w.cwd options.sourceRoot = .ok plan.source ∧
      outputLocation w.files w.cwd options.outputRoot = .ok plan.output ∧
      plan.source.startsWith plan.output = false := by
  have hfiles := validate_keeps (J := (· = w.files)) options w rfl
  rw [after_ok h] at hfiles
  obtain ⟨source, w₁, hs, h₁⟩ := bind_eq_ok h
  obtain ⟨rfl, hcanonical, -⟩ := sourceFor_ok hs
  obtain ⟨output, w₂, ho, h₂⟩ := bind_eq_ok h₁
  obtain ⟨rfl, hlocation, hstarts⟩ := outputFor_ok ho
  obtain ⟨ignore, w₃, hi, h₃⟩ := bind_eq_ok h₂
  cases h₃
  exact ⟨hfiles, hcanonical, hlocation, hstarts⟩

theorem produce_keeps {limits : Walk.Limits} (hp : options.outputRoot.Spells base)
    (hw : Confined base root fs₀ w.files)
    (hplain : Walk.MeetsPlain limits maxNesting options options.sourceRoot options.outputRoot w) :
    Confined base root fs₀ ((produce limits options).after w).files := by
  refine bind_keeps ?_ fun _ w₁ _ hw₁ => ?_
  · exact Walk.render_keeps (D := Below base) (fun hd hs => (inside_child hd hs.isName).below)
      (fun options source _ _ _ hd hs => Walk.emit_keeps writes_confined options source (isTarget_child hd hs)) maxNesting rfl
        hw (Below.self hp) hplain
  · split
    · exact Asset.runPasses_keeps hp w₁ hw₁
    · exact hw₁

theorem clear_eq (p : Path) (w : World) : clear p w = match w.files.removeDirectory w.cwd p with
    | .ok files => .ok () { w with files := files }
    | .error (cause, files) =>
      if cause = .missing then .ok () { w with files := files }
        else .error (.write p cause) { w with files := files } := by
  rw [clear, get_bind]
  cases w.files.removeDirectory w.cwd p with
  | ok files => rfl
  | error e =>
      obtain ⟨cause, files⟩ := e
      by_cases hc : cause = .missing
      · subst hc; rfl
      · simp only [hc, if_false]
        rfl

theorem clear_missing (h : w.files.resolve w.cwd false p = .error .missing) : clear p w = .ok () w := by
  rw [clear_eq, removeDirectory_error h]
  rfl

theorem clear_refused {cause : Cause} (h : w.files.resolve w.cwd false p = .error cause) (hc : cause ≠ .missing) :
    clear p w = .error (.write p cause) w := by
  rw [clear_eq, removeDirectory_error h]
  exact if_neg hc

theorem clear_files (p : Path) (w : World) :
    ((clear p).after w).files = left (w.files.removeDirectory w.cwd p) := by
  rw [after, clear_eq]
  cases w.files.removeDirectory w.cwd p with
  | ok files => rfl
  | error e =>
      by_cases hc : e.1 = .missing
      · simp only [hc, if_true, left]
      · simp only [hc, if_false, left]

theorem clear_ok {u : Unit} (h : clear p w = .ok u w') :
    w'.files = w.files ∨ ∃ loc, w'.files = w.files.remove loc := by
  rw [clear_eq] at h
  cases hr : w.files.removeDirectory w.cwd p with
  | ok files =>
      rw [hr] at h
      cases h
      obtain ⟨loc, node, -, rfl⟩ := removeDirectory_ok hr
      exact .inr ⟨loc, rfl⟩
  | error e =>
      obtain ⟨cause, files⟩ := e
      rw [hr] at h
      dsimp only at h
      split at h
      · next hc =>
        cases h
        subst hc
        exact .inl (removeDirectory_missing hr)
      · cases h

def started (plan : Plan) : Event :=
  .record .info .build ("Building " ++ plan.source.text ++ " into " ++ plan.output.text)

theorem prepare_true (plan : Plan) : prepare plan true =
    clear plan.staging >>= fun _ => makeDirectories plan.staging >>= fun _ => tell (started plan) := rfl

theorem prepare_in_place_made {fs : FileSystem} (h : w.files.makeDirectories w.cwd plan.output = .ok fs) :
    prepare plan false w = .ok () { w with files := fs, events := started plan :: w.events } :=
  bind_ok (makeDirectories_made h)

theorem prepare_in_place_refused {fs : FileSystem} {cause : Cause}
    (h : w.files.makeDirectories w.cwd plan.output = .error (cause, fs)) :
    prepare plan false w = .error (.write plan.output cause) { w with files := fs } :=
  bind_error (makeDirectories_refused h)

theorem carryOut_clean (plan : Plan) (hclean : options.clean = true) :
    carryOut plan options = buildClean (plan.limits true) (plan.inner options) plan.output plan.staging := by
  rw [carryOut, hclean]
  rfl

theorem inner_outputRoot (plan : Plan) (hclean : options.clean = true) :
    (plan.inner options).outputRoot = plan.staging := by
  rw [Plan.inner, hclean]
  rfl

def finished (plan : Plan) : Event := .record .info .build ("Build completed in " ++ plan.output.text)

theorem build_of_plan (hv : validate options w = .ok plan w') : build options w =
    (prepare plan options.clean >>= fun _ => carryOut plan options >>= fun hashed =>
      tell (finished plan) >>= fun _ => pure ⟨plan.output, hashed⟩) w' :=
  bind_ok hv

theorem tryCatch_ok {α : Type} {a : Action α} {f : Failure → Action α} {v : α} (h : a w = .ok v w') :
    (tryCatch a f) w = .ok v w' := by
  simp [tryCatch, tryCatchThe, MonadExceptOf.tryCatch, EStateM.tryCatch, h]

theorem tryCatch_error {α : Type} {a : Action α} {f : Failure → Action α} {e : Failure}
    (h : a w = .error e w') :
    (tryCatch a f) w = f e w' := by
  simp [tryCatch, tryCatchThe, MonadExceptOf.tryCatch, EStateM.tryCatch, h]
  rfl

theorem cleanUp_ok (staging : Path) (w : World) : ∃ w', cleanUp staging w = .ok () w' ∧
    w'.files = left (w.files.removeDirectory w.cwd staging) := by
  have hfiles := clear_files staging w
  cases hc : clear staging w with
  | ok u w' => exact ⟨w', tryCatch_ok hc, by rwa [after_ok hc] at hfiles⟩
  | error e w' => exact ⟨_, tryCatch_error hc, by rwa [after_error hc] at hfiles⟩

theorem buildClean_error {limits : Walk.Limits} {e : Failure} (h : produce limits options w = .error e w')
    (output staging : Path) :
    ∃ w₁, buildClean limits options output staging w = .error e w₁ ∧
      w₁.files = left (w'.files.removeDirectory w'.cwd staging) := by
  obtain ⟨w₁, hclean, hfiles⟩ := cleanUp_ok staging w'
  refine ⟨w₁, bind_error ((tryCatch_error h).trans ?_), hfiles⟩
  rw [bind_ok hclean]
  rfl

theorem buildClean_ok {limits : Walk.Limits} {hashed : Asset.Renames}
    (h : produce limits options w = .ok hashed w') (output staging : Path) :
      ∃ events, buildClean limits options output staging w =
      (publish staging output >>= fun _ => pure hashed) { w' with events := events } :=
  ⟨_, bind_ok (tryCatch_ok h)⟩

end SiteTree.Build
