import SiteTree.Proofs.Build.Modes
import SiteTree.Proofs.Build.OutputRoot
import SiteTree.Proofs.Build.Rebuild
import SiteTree.Proofs.Walk.Order

/-!
Builds that only copy, straight into the output, made again where they have been made. Whether the first one succeeded
or not, the second one changes nothing and comes to the same.
-/

namespace SiteTree

open SiteTree.Action FileSystem SiteTree.Path

/-- The same failure, however the path that could not be written is spelled. -/
inductive Failure.Alike : Failure → Failure → Prop
  | refl (e : Failure) : Alike e e
  | write {p p' : Path} (h : p.alike p' = true) (cause : Cause) : Alike (.write p cause) (.write p' cause)

/-- The same report, however the output is spelled. -/
structure Build.Report.Alike (r r' : Report) : Prop where
  outputRoot : r.outputRoot.alike r'.outputRoot = true
  hashed : r'.hashed = r.hashed

namespace Build

open Walk

variable {options : Options} {plan : Plan} {ignore : Ignore} {fs fs' : FileSystem} {w w' w₁ w₂ : World} {l : List String}
  {cwd loc d x : Location} {cause : Cause} {name : String} {p q output source : Path}

/-- Without links the output is where its path says, whether or not the directory that holds it is there. -/
theorem outputLocation_unlinked (hfree : fs.LinkFree []) (hcwd : ∀ s ∈ cwd, IsName s) (hup : ".." ∉ absoluteNames cwd output)
    (h : outputLocation fs cwd output = .ok p) : p.Spells (absoluteNames cwd output) := by
  cases ha : absolute cwd output with
  | error cause => rw [outputLocation, ha] at h; cases h
  | ok path =>
      have hspells := absolute_spells hcwd ha
      generalize absoluteNames cwd output = names at hspells hup ⊢
      rcases List.eq_nil_or_concat' names with rfl | ⟨l, s, rfl⟩
      · rw [outputLocation_unnamed ha (by rw [fileName?, hspells.fileChars_nil]; rfl)] at h
        cases h
        exact hspells
      · have hn : ∀ t ∈ l ++ [s], IsName t := fun t ht => hspells.isName ht fun he => hup (he ▸ ht)
        have hs : IsName s := hn s (by simp)
        have hl : ∀ t ∈ l, IsName t := fun t ht => hn t (List.mem_append_left _ ht)
        obtain ⟨parent, hparent, hps⟩ := hspells.parent
        have hfile : path.fileName? = some s := by
          rw [fileName?, hspells.fileChars hs.2.2.1, Option.map_some, String.ofList_toList]
        cases hc : fs.canonical cwd parent with
        | error cause =>
            rw [outputLocation_unresolved ha hparent hfile hc] at h
            cases h
            exact hspells
        | ok dir =>
            rw [outputLocation_resolved ha hparent hfile hc] at h
            cases h
            rw [canonical] at hc
            cases hf : fs.found cwd parent with
            | error cause => rw [hf] at hc; cases hc
            | ok there =>
                obtain ⟨loc, node⟩ := there
                rw [hf] at hc
                cases hc
                obtain rfl : loc = l := found_unlinked hps (fun t ht => (hl t ht).isStep)
                  (fun y target _ => hfree y target List.nil_prefix) hf
                exact ((spells_pathOf hl).child hs).1

theorem validate_eq_ok (hs : w.files.canonical w.cwd options.sourceRoot = .ok source)
    (hd : w.files.isDirectory w.cwd source = true) (ho : outputLocation w.files w.cwd options.outputRoot = .ok output)
    (hstarts : source.startsWith output = false) (hi : filterFor source options.ignore w = .ok ignore w₁) :
    validate options w = .ok ⟨source, output, ignore⟩ w₁ := by
  have hlook : look (fun fs cwd => fs.canonical cwd options.sourceRoot) (.read options.sourceRoot) w = .ok source w := by
    rw [look_eq, hs]
  have hcheck : check (fun fs cwd => fs.isDirectory cwd source) w = .ok true w := by
    rw [← hd]
    rfl
  have hsource : sourceFor options.sourceRoot w = .ok source w := by
    rw [sourceFor, bind_ok hlook, bind_ok hcheck]
    rfl
  have houtput : outputFor options.outputRoot source w = .ok output w := by
    rw [outputFor_eq ho, hstarts]
    rfl
  rw [validate, bind_ok hsource, bind_ok houtput, bind_ok hi]
  rfl

theorem outputLocation_anywhere (h : outputLocation fs cwd output = .ok p) (fs' : FileSystem) :
    ∃ q, outputLocation fs' cwd output = .ok q := by
  cases ha : absolute cwd output with
  | error cause => rw [outputLocation, ha] at h; cases h
  | ok path =>
      cases hparent : path.parent? with
      | none => exact ⟨path, by simp [outputLocation, ha, hparent, bind, Except.bind]⟩
      | some parent =>
          cases hname : path.fileName? with
          | none => exact ⟨path, outputLocation_unnamed ha hname⟩
          | some name =>
              cases hc : fs'.canonical cwd parent with
              | error cause => exact ⟨_, outputLocation_unresolved ha hparent hname hc⟩
              | ok dir => exact ⟨_, outputLocation_resolved ha hparent hname hc⟩

theorem canonical_extended (h : fs.canonical cwd q = .ok p) (he : fs.Extends fs') : fs'.canonical cwd q = .ok p := by
  rw [canonical] at h ⊢
  cases hf : fs.found cwd q with
  | error cause => rw [hf] at h; cases h
  | ok there => rwa [found_extended hf he, ← hf]

/-- Where one walk has carried out its errands, the other one tells the same. -/
theorem likewise_of_respelled {T T' : Walk.Trip} {first last : Option Failure} (hp : T.dest.Spells d) (hq : T'.dest.Spells d)
    (h : Trip.Respelled T T' first last) : Likewise Failure.Alike Report.Alike (first.elim (.ok ⟨T.dest, []⟩) .error)
      (last.elim (.ok ⟨T'.dest, []⟩) .error) := by
  cases h with
  | same =>
      cases first with
      | none => exact .ok ⟨hp.alike hq, rfl⟩
      | some e => exact .error (.refl e)
  | refused hn cause => exact .error (.write ((hp.descend hn).alike (hq.descend hn)) cause)

section

variable (hw : fs.WellFormed) (hfree : fs.LinkFree []) (hs : source.Spells loc) (hloc : fs.at? loc = some .directory)
  (hp : output.Spells d) (hd : fs.at? d = some .directory) (hoff : ¬ d <+: loc)

/-- The walk of a build straight into the output, once that has been made. -/
def trip (cwd : Location) (ignore : Ignore) : Trip where
  limits := ⟨ignore, [output]⟩
  cwd := cwd
  source := source
  loc := loc
  dest := output
  top := d
  files := fs
  ready := ⟨hw, leadsTo_of_spells hw hs hloc cwd, .inl (leadsTo_of_spells hw hp hd cwd), hfree.below List.nil_prefix,
    fun _ _ hx => hx, fun _ _ => .inl rfl⟩
  linkFree := hfree.below List.nil_prefix
  off := hoff
  passed := by
    rintro rel rfl
    have hrel := names_below hw (show (fs.at? (loc ++ rel)).isSome by rw [hd]; rfl)
    have halike : output.alike (source.descend rel) = true := hp.alike (hs.descend hrel)
    have hany : [output].any (·.alike (source.descend rel)) = true := List.any_eq_true.2 ⟨output, by simp, halike⟩
    rw [passedOver, hany, Bool.true_or]
  apart := by
    rw [hd]
    exact nofun

/-- However the output is spelled, the errands are the same. -/
theorem trip_errands (hq : q.Spells d) (n : Nat) (rel target : List String) (scope : Scope) :
    (trip hw hfree hs hloc hq hd hoff cwd ignore).errands n rel target scope =
      (trip hw hfree hs hloc hp hd hoff cwd ignore).errands n rel target scope := by
  have hpassed : passedOver ⟨ignore, [q]⟩ source = passedOver ⟨ignore, [output]⟩ source := by
    funext rel
    have halike : q.alike (source.descend rel) = output.alike (source.descend rel) := by
      rw [Path.alike, Path.alike, hp.components, hq.components]
    simp only [passedOver, List.any_cons, List.any_nil, halike]
  exact errands_congr hpassed n rel target scope

/-- The walk by name carries out its errands in their order. -/
theorem trip_runs {astray : Prop} (n : Nat) (hroot : options.sourceRoot = source) (hlinks : options.links = [])
    (hholds : (trip hw hfree hs hloc hp hd hoff cwd ignore).Holds w.files) (hcwd : w.cwd = cwd)
    (hmet : ¬ astray → MeetsOnly IsName ⟨ignore, [output]⟩ n options source output w) :
    (trip hw hfree hs hloc hp hd hoff cwd ignore).Runs astray
      ((trip hw hfree hs hloc hp hd hoff cwd ignore).errands n [] [] options.scope)
      (render ⟨ignore, [output]⟩ n options source output) w := by
  let T := trip hw hfree hs hloc hp hd hoff cwd ignore
  obtain ⟨L, hL, hruns⟩ := T.walk_runs ⟨hholds, hcwd⟩ hroot hlinks .byName n fun ha => ⟨rfl, hmet ha⟩
  rwa [hL.same rfl, Order.byName_render] at hruns

/-- Where the walk has been made, it changes nothing and comes to the same, however the output is spelled now. -/
theorem walk_again (inner : Options) (w : World) {first : Option Failure} (hq : q.Spells d) (n : Nat)
    (hfirst : (trip hw hfree hs hloc hp hd hoff cwd ignore).Carries False
      ((trip hw hfree hs hloc hp hd hoff cwd ignore).errands n [] [] inner.scope) fs first w.files)
    (hroot : inner.sourceRoot = source) (hlinks : inner.links = []) (hcwd : w.cwd = cwd) :
    ((render ⟨ignore, [q]⟩ n inner source q).after w).files = w.files ∧
      Likewise Failure.Alike Report.Alike (first.elim (.ok ⟨output, []⟩) .error)
        ((failure? (render ⟨ignore, [q]⟩ n inner source q) w).elim (.ok ⟨q, []⟩) .error) := by
  let T := trip hw hfree hs hloc hp hd hoff cwd ignore
  obtain ⟨hholds, hextends⟩ := hfirst.kept T.ready
  have hdest : w.files.LeadsTo cwd q d := leadsTo_of_spells hholds.wellFormed hq (hextends _ _ hd) cwd
  let T' := trip hw hfree hs hloc hq hd hoff cwd ignore
  have hholds' : T'.Holds w.files :=
    ⟨hholds.wellFormed, hholds.source, .inl hdest, hholds.linkFree, hextends, hholds.outside⟩
  have hruns := trip_runs hw hfree hs hloc hq hd hoff n hroot hlinks hholds' hcwd fun ha : ¬ True => absurd trivial ha
  rw [trip_errands hw hfree hs hloc hp hd hoff hq] at hruns
  obtain ⟨hsame, hrespelled⟩ := hfirst.again (show T'.top = T.top from rfl) T.ready hruns
  exact ⟨hsame, likewise_of_respelled hp hq hrespelled⟩

end

section

variable (hclean : options.clean = false) (hhash : options.hash = false) (hv : validate options w = .ok plan w₁)
  (hprepare : prepare plan false w₁ = .ok () w₂)

include hclean hhash hv hprepare

/-- Once the output is there, the walk tells what the build comes to. -/
theorem build_of_prepared :
    let walk := render (plan.limits false) maxNesting (plan.inner options) plan.source plan.output
    outcome (build options) w = (failure? walk w₂).elim (.ok ⟨plan.output, []⟩) .error ∧
      ((build options).after w).files = (walk.after w₂).files := by
  intro walk
  have hroot : plan.root false = plan.output := rfl
  have hcarry : carryOut plan options = walk >>= fun _ => pure [] := by
    simp only [carryOut, produce, Plan.inner, hroot, hclean, hhash, walk, Bool.false_eq_true, if_false]
  have hbuild : build options w =
      (walk >>= fun _ => tell (finished plan) >>= fun _ => pure ⟨plan.output, []⟩) w₂ := by
    rw [build_of_plan hv, hclean, bind_ok hprepare, hcarry, bind_assoc]
    rfl
  cases hrun : walk w₂ with
  | ok u w₃ =>
      have hend : build options w = .ok ⟨plan.output, []⟩ { w₃ with events := _ } := hbuild.trans (bind_ok hrun)
      rw [failure?_ok hrun, after_ok hrun]
      exact ⟨outcome_ok hend, by rw [after_ok hend]⟩
  | error e w₃ =>
      have hend := hbuild.trans (bind_error hrun)
      rw [failure?_error hrun, after_error hrun]
      exact ⟨outcome_error hend, by rw [after_error hend]⟩

end

/-- Neither the source nor the filter of a build has changed once it has been made, if the output is not where the ignore
file would be. -/
theorem validate_again (hw : w.files.WellFormed) (hcwd : ∀ s ∈ w.cwd, IsName s) (hfree : w.files.LinkFree [])
    (hup : .up ∉ options.outputRoot.components) (hv : validate options w = .ok plan w₁) (hp : plan.output.Spells d)
    (hw' : w'.files.WellFormed) (hfree' : w'.files.LinkFree []) (hcwd' : w'.cwd = w.cwd) (he : w.files.Extends w'.files)
    (hsame : ∀ x, w.files.at? x = none → ¬ x <+: d → ¬ d <+: x → w'.files.at? x = none)
    (hignore : settled plan.source ++ [Ignore.fileName] <+: d → w.files.at? (settled plan.source ++ [Ignore.fileName]) ≠ none) :
    ∃ p' w₁', p'.Spells d ∧ validate options w' = .ok ⟨plan.source, p', plan.ignore⟩ w₁' ∧
      ∃ events, w₁' = { w' with events := events } := by
  obtain ⟨-, hcanonical, hlocation, hstarts⟩ := validate_ok hv
  obtain ⟨hs, hd⟩ := source_of_validate hw hv
  obtain ⟨loc, hden⟩ := canonical_denotes hw hcanonical
  rw [hden.settled] at hignore hs hd
  have hnames := up_not_mem_absoluteNames hcwd hup
  have hbase : d = absoluteNames w.cwd options.outputRoot :=
    hp.stretches.symm.trans (outputLocation_unlinked hfree hcwd hnames hlocation).stretches
  obtain ⟨p', hp'⟩ := outputLocation_anywhere hlocation w'.files
  have hspells : p'.Spells d := by
    rw [hbase]
    exact outputLocation_unlinked hfree' hcwd hnames hp'
  have hoff : ¬ d <+: loc := fun hc => by
    rw [(hs.startsWith_iff hp).2 hc] at hstarts
    cases hstarts
  have hfile : w'.files.at? (loc ++ [Ignore.fileName]) = w.files.at? (loc ++ [Ignore.fileName]) := by
    cases hat : w.files.at? (loc ++ [Ignore.fileName]) with
    | some node => exact he _ _ hat
    | none =>
        refine hsame _ hat (fun hc => hignore hc hat) fun hc => ?_
        rcases List.prefix_concat_iff.1 hc with rfl | hc
        · exact hignore List.prefix_rfl hat
        · exact hoff hc
  have htext : w'.files.readText w.cwd (plan.source.child Ignore.fileName) =
      w.files.readText w.cwd (plan.source.child Ignore.fileName) := by
    rw [hden.eq]
    exact readText_same hw hd (he _ _ hd) hw' (by decide) hfile fun target => hfree _ target List.nil_prefix
  obtain ⟨w₂, hfilter⟩ := validate_filter hv
  obtain ⟨w₁', hfilter'⟩ := filterFor_of_text hfilter (by rw [hcwd']; exact htext)
  refine ⟨p', w₁', hspells, validate_eq_ok ?_ ?_ ?_ ?_ hfilter', filterFor_tells hfilter'⟩
  · rw [hcwd']
    exact canonical_extended hcanonical he
  · rw [isDirectory, leadsTo_iff.1 (leadsTo_of_spells hw' hs (he _ _ hd) w'.cwd)]
    rfl
  · rw [hcwd', hp']
  · rw [← hstarts, Bool.eq_iff_iff, hs.startsWith_iff hspells, hs.startsWith_iff hp]

theorem validate_congr (hfiles : w'.files = w.files) (hcwd : w'.cwd = w.cwd) :
    EndAlike True (fun _ _ => True) Eq (validate options w) (validate options w') := by
  refine validate_alike (by rw [hfiles, hcwd]) (by rw [hfiles, hcwd]) (fun s _ => by rw [hfiles, hcwd]) fun s p _ _ _ _ => ?_
  exact filterFor_alike (by rw [hfiles, hcwd]) _

/-- A build that fails before it renders anything has changed nothing, and it fails again for the same reason. -/
theorem build_stopped_again (hw : w.files.WellFormed) (hcwd : ∀ s ∈ w.cwd, IsName s)
    (hclean : options.clean = false) (hup : .up ∉ options.outputRoot.components)
    (hstop : ∀ plan w₁ w₂, validate options w = .ok plan w₁ → prepare plan false w₁ ≠ .ok () w₂)
    (hfiles : w'.files = ((build options).after w).files) (hcwd' : w'.cwd = w.cwd) :
    ((build options).after w').files = w'.files ∧ ∃ e, outcome (build options) w = .error e ∧
      outcome (build options) w' = .error e := by
  cases hv : validate options w with
  | error e w₁ =>
      have hkept := validate_keeps (J := (· = w.files)) options w rfl
      have hrun : build options w = .error e w₁ := bind_error hv
      rw [after_error hv] at hkept
      rw [after_error hrun, hkept] at hfiles
      have hagain : EndAlike _ _ _ (validate options w) (validate options w') := validate_congr hfiles hcwd'
      rw [hv] at hagain
      generalize hv' : validate options w' = r at hagain
      cases hagain with
      | @error _ e' _ w₁' he =>
          obtain rfl := he trivial
          have hrun' : build options w' = .error e w₁' := bind_error hv'
          have hkept' := validate_keeps (J := (· = w'.files)) options w' rfl
          rw [after_error hv'] at hkept'
          exact ⟨by rw [after_error hrun', hkept'], e, outcome_error hrun, outcome_error hrun'⟩
  | ok plan w₁ =>
      obtain ⟨l, name, hp⟩ := placed_of_validate hw hcwd hup hv
      obtain ⟨events, rfl⟩ := validate_tells hv
      obtain ⟨cause, hmake⟩ : ∃ cause, w.files.makeDirectories w.cwd plan.output = .error (cause, w.files) := by
        have hprepared : ∀ fs, w.files.makeDirectories w.cwd plan.output ≠ .ok fs := by
          intro fs hmake
          have hprepare : prepare plan false { w with events := events } = _ := prepare_in_place_made hmake
          exact hstop _ _ _ hv hprepare
        rcases makeDirectories_spelled hw w.cwd hp.spells (not_up_of_isName (hp.names_append hp.isName)) with hfail |
          ⟨hmake, -⟩ | ⟨fs, -, hmake, -⟩
        · exact hfail
        · exact absurd hmake (hprepared _)
        · exact absurd hmake (hprepared _)
      have hprepare : prepare plan false { w with events := events } = .error _ _ := prepare_in_place_refused hmake
      have hrun : build options w = .error _ _ := (build_of_plan hv).trans (by rw [hclean]; exact bind_error hprepare)
      rw [after_error hrun] at hfiles
      have hagain : EndAlike _ _ _ (validate options w) (validate options w') := validate_congr hfiles hcwd'
      obtain ⟨w₁', hv', -⟩ := hagain.result hv
      obtain ⟨events', rfl⟩ := validate_tells hv'
      have hprepare' : prepare plan false { w' with events := events' } = .error _ _ :=
        prepare_in_place_refused (show w'.files.makeDirectories w'.cwd plan.output = _ by rw [hcwd', hfiles, hmake])
      have hrun' : build options w' = .error _ _ := (build_of_plan hv').trans (by rw [hclean]; exact bind_error hprepare')
      exact ⟨by rw [after_error hrun', hfiles], _, outcome_error hrun, outcome_error hrun'⟩

/-- Only a file on the way keeps the output from being made. -/
theorem openTo_of_prepared (hw : w.files.WellFormed) (hfree : w.files.LinkFree []) (hp : Placed w.files plan.output l name)
    (h : prepare plan false w = .ok () w₂) : w.files.OpenTo (l ++ [name]) := by
  by_contra ho
  obtain ⟨y, node, hy, hat, hne⟩ := exists_of_not_openTo ho
  cases node with
  | directory => exact hne rfl
  | link target => exact hfree y target List.nil_prefix hat
  | file bytes =>
      obtain ⟨⟨cause, fs⟩, hmake⟩ : ∃ e, w.files.makeDirectories w.cwd plan.output = .error e :=
        makeDirectories_blocked hw hp.spells hat hy
      cases h.symm.trans (prepare_in_place_refused hmake)

/-- The output has been made if it was not there, and nothing else has changed. -/
structure OutputMade (d : Location) (w w' : World) : Prop where
  wellFormed : w'.files.WellFormed
  linkFree : w'.files.LinkFree []
  cwd : w'.cwd = w.cwd
  directory : w'.files.at? d = some .directory
  kept : w.files.Extends w'.files
  outside : ∀ x, ¬ x <+: d → w'.files.at? x = w.files.at? x

theorem outputMade_of_prepared (hw : w.files.WellFormed) (hfree : w.files.LinkFree []) (hp : Placed w.files plan.output l name)
    (h : prepare plan false w = .ok () w') : OutputMade (l ++ [name]) w w' := by
  have ho := openTo_of_prepared hw hfree hp h
  obtain ⟨w₁, hrun, hcwd, hw₁, hat⟩ := prepare_output_open hw hp ho
  cases h.symm.trans hrun
  refine ⟨hw₁, fun x target _ hx => ?_, hcwd, by rw [hat, if_pos List.prefix_rfl], ho.extension hat, fun x hx => ?_⟩
  · rw [hat] at hx
    split at hx
    · cases hx
    · exact hfree x target List.nil_prefix hx
  · rw [hat, if_neg hx]

theorem prepare_in_place_there (h : w.files.LeadsTo w.cwd plan.output d) :
    ∃ events, prepare plan false w = .ok () { w with events := events } := by
  have hmake : w.files.makeDirectories w.cwd plan.output = .ok w.files := h.makeLevels_there _
  exact ⟨_, prepare_in_place_made hmake⟩

/-- Once the output is there, both builds carry out the same errands. -/
theorem build_prepared_again (hw : w.files.WellFormed) (hfree : w.files.LinkFree []) (hcwd : ∀ s ∈ w.cwd, IsName s)
    (hclean : options.clean = false) (hlinks : options.links = []) (hhash : options.hash = false)
    (hup : .up ∉ options.outputRoot.components) (hnames : ExpandsToNames options w)
    (hignore : ∀ s p, w.files.canonical w.cwd options.sourceRoot = .ok s →
      outputLocation w.files w.cwd options.outputRoot = .ok p → settled s ++ [Ignore.fileName] <+: settled p →
      w.files.at? (settled s ++ [Ignore.fileName]) ≠ none)
    (hv : validate options w = .ok plan w₁) (hprepare : prepare plan false w₁ = .ok () w₂)
    (hfiles : w'.files = ((build options).after w).files) (hcwd' : w'.cwd = w.cwd) :
    ((build options).after w').files = w'.files ∧
      Likewise Failure.Alike Report.Alike (outcome (build options) w) (outcome (build options) w') := by
  obtain ⟨l, name, hp⟩ := placed_of_validate hw hcwd hup hv
  obtain ⟨hbuild, hafter⟩ := build_of_prepared hclean hhash hv hprepare
  obtain ⟨-, hcanonical, hlocation, hstarts⟩ := validate_ok hv
  obtain ⟨hs, hloc⟩ := source_of_validate hw hv
  have honly := hnames plan w₁ w₂ hv (by rwa [hclean])
  rw [hclean, show plan.root false = plan.output from rfl] at honly
  obtain ⟨events, rfl⟩ := validate_tells hv
  have hmade := outputMade_of_prepared (w := { w with events := events }) hw hfree hp hprepare
  have hsource := hmade.kept _ _ hloc
  have hoff : ¬ l ++ [name] <+: settled plan.source := fun hc => by
    rw [(hs.startsWith_iff hp.spells).2 hc] at hstarts
    cases hstarts
  -- The first build carries out its errands from where its output has been made.
  have hruns := trip_runs hmade.wellFormed hmade.linkFree hs hsource hp.spells hmade.directory hoff maxNesting
    (show (plan.inner options).sourceRoot = plan.source from rfl) hlinks (Trip.ready _) hmade.cwd fun _ : ¬ False => honly
  have hfirst : w'.files = ((render ⟨plan.ignore, [plan.output]⟩ maxNesting (plan.inner options) plan.source
      plan.output).after w₂).files := hfiles.trans hafter
  rw [Trip.Runs, ← hfirst] at hruns
  obtain ⟨hholds, hextends⟩ := hruns.kept (Trip.ready _)
  have hthere : w₂.files.at? (l ++ [name]) ≠ none := by simp [hmade.directory]
  -- The second one finds the same plan, and its output is there.
  obtain ⟨p', w₁', hp', hv', events', rfl⟩ := validate_again hw hcwd hfree hup hv hp.spells hholds.wellFormed
    (hholds.linkFree_all hthere hmade.linkFree) hcwd' (fun x node hx => hextends _ _ (hmade.kept _ _ hx))
    (fun x hnone hx hx' => (hholds.unchanged hthere hx').trans ((hmade.outside x hx).trans hnone))
    (by
      have hi := hignore _ _ hcanonical hlocation
      rwa [hp.settled_eq.1] at hi)
  have hdest' : w'.files.LeadsTo w'.cwd p' (l ++ [name]) :=
    leadsTo_of_spells hholds.wellFormed hp' (hextends _ _ hmade.directory) w'.cwd
  obtain ⟨events'', hprepare'⟩ : ∃ events, prepare ⟨plan.source, p', plan.ignore⟩ false { w' with events := events' } =
      .ok () { w' with events := events } := prepare_in_place_there hdest'
  obtain ⟨hbuild', hafter'⟩ := build_of_prepared hclean hhash hv' hprepare'
  obtain ⟨hsame, hlikewise⟩ := walk_again hmade.wellFormed hmade.linkFree hs hsource hp.spells hmade.directory hoff
    (Plan.inner ⟨plan.source, p', plan.ignore⟩ options) { w' with events := events'' } hp' maxNesting hruns rfl hlinks hcwd'
  rw [hbuild, hbuild', hafter']
  exact ⟨hsame, hlikewise⟩

/-- In a tree without links, a build that only copies, straight into its output, is idempotent: made again right after, it
changes nothing and comes to the same, whether it succeeded or not. Only, where it looks for its ignore file, it may not
have put its output. -/
theorem build_in_place_again (hw : w.files.WellFormed) (hfree : w.files.LinkFree []) (hcwd : ∀ s ∈ w.cwd, IsName s)
    (hclean : options.clean = false) (hlinks : options.links = []) (hhash : options.hash = false)
    (hup : .up ∉ options.outputRoot.components) (hnames : ExpandsToNames options w)
    (hignore : ∀ s p, w.files.canonical w.cwd options.sourceRoot = .ok s →
      outputLocation w.files w.cwd options.outputRoot = .ok p → settled s ++ [Ignore.fileName] <+: settled p →
      w.files.at? (settled s ++ [Ignore.fileName]) ≠ none)
    (hfiles : w'.files = ((build options).after w).files) (hcwd' : w'.cwd = w.cwd) :
    ((build options).after w').files = w'.files ∧
      Likewise Failure.Alike Report.Alike (outcome (build options) w) (outcome (build options) w') := by
  by_cases hstop : ∀ plan w₁ w₂, validate options w = .ok plan w₁ → prepare plan false w₁ ≠ .ok () w₂
  · obtain ⟨hsame, e, he, he'⟩ := build_stopped_again hw hcwd hclean hup hstop hfiles hcwd'
    rw [he, he']
    exact ⟨hsame, .error (.refl e)⟩
  · push Not at hstop
    obtain ⟨plan, w₁, w₂, hv, hprepare⟩ := hstop
    exact build_prepared_again hw hfree hcwd hclean hlinks hhash hup hnames hignore hv hprepare hfiles hcwd'

/-- A file that is to be copied to `b`, and a directory of that name. -/
def crossing : World :=
  ⟨⟨[(["src", "[v]"], .file "x".toUTF8), (["src", "b", "c.txt"], .file "y".toUTF8), (["src", "b"], .directory),
    (["src"], .directory)]⟩, [], []⟩

def crossInto : Options := inPlace (plainCopy "src" "src/out" (.ofPairs [("v", .text "b")]))

/-- The first build copies the file and fails below it. -/
theorem crossing_again : ∃ e w₁, build crossInto crossing = .error e w₁ ∧
    w₁.files.at? ["src", "out", "b"] = some (.file "x".toUTF8) ∧
    ((build crossInto).after { crossing with files := w₁.files }).files = w₁.files ∧
    Likewise Failure.Alike Report.Alike (outcome (build crossInto) crossing)
      (outcome (build crossInto) { crossing with files := w₁.files }) := by
  have hlocation : outputLocation crossing.files crossing.cwd crossInto.outputRoot = .ok ⟨"/src/out"⟩ := by decide +kernel
  have hsource : crossing.files.canonical crossing.cwd crossInto.sourceRoot = .ok ⟨"/src"⟩ := by decide +kernel
  have hcopied : ((build crossInto).after crossing).files.at? ["src", "out", "b"] = some (.file "x".toUTF8) := by
    decide +kernel
  have hfails : succeeds (build crossInto) crossing = false := by decide +kernel
  cases hrun : build crossInto crossing with
  | ok report w₁ => cases hfails.symm.trans (succeeds_iff.2 ⟨report, w₁, hrun⟩)
  | error e w₁ =>
      rw [after_error hrun] at hcopied
      have hagain := @build_in_place_again crossInto crossing { crossing with files := w₁.files }
        (by decide +kernel) (by decide +kernel) (by decide) rfl rfl rfl (by decide +kernel)
        (ExpandsPlain.names (by decide +kernel))
        (fun s p hs hp => by
          cases hsource.symm.trans hs
          cases hlocation.symm.trans hp
          decide +kernel)
        (by rw [after_error hrun]) rfl
      exact ⟨e, w₁, rfl, hcopied, hagain⟩

/-- Where the ignore file is looked for, the second build finds the output of the first one, and fails. -/
theorem ignore_file_not_again : noSite.files.WellFormed ∧ noSite.files.LinkFree [] ∧
    .up ∉ (inPlace ontoIgnoreFile).outputRoot.components ∧ ExpandsToNames (inPlace ontoIgnoreFile) noSite ∧
    ∃ report w₁, build (inPlace ontoIgnoreFile) noSite = .ok report w₁ ∧
      succeeds (build (inPlace ontoIgnoreFile)) { noSite with files := w₁.files } = false := by
  refine ⟨by decide +kernel, by decide +kernel, by decide +kernel, ExpandsPlain.names (by decide +kernel), ?_⟩
  obtain ⟨report, w₁, hbuild, hafter⟩ := yields_iff.1 (show yields (build (inPlace ontoIgnoreFile)) noSite (fun _ w₁ =>
    !succeeds (build (inPlace ontoIgnoreFile)) { noSite with files := w₁.files }) = true by decide +kernel)
  exact ⟨report, w₁, hbuild, by simpa using hafter⟩

end Build

end SiteTree
