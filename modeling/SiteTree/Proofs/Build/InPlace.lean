import SiteTree.Proofs.Build.Rivals
import SiteTree.Proofs.FileSystem.Uncovered
import SiteTree.Proofs.Walk.Calls

/-!
Builds that only copy, straight into the output. They remove nothing, and they change no file that was there but one
that the making of the directories above a target has uncovered; that takes a double dot in an expanded name.
-/

namespace SiteTree.Build

open SiteTree.Action FileSystem SiteTree.Path Walk

variable {options : Options} {plan : Plan} {start : FileSystem} {source target : Path} {w w' w₁ w₂ : World} {x : Handover}
  {y d : Location} {bytes : ByteArray} {base : List String}

/-- The target of a copy is not there, but it denotes a file once the directories above it have been made. -/
def Uncovers (target : Path) (w : World) (y : Location) : Prop :=
  w.files.pathExists w.cwd target = false ∧ ∃ w' bytes, makeParent target w = .ok () w' ∧
    w'.files.found w'.cwd target = .ok (y, .file bytes)

theorem makeParent_kept (hw : w.files.WellFormed) (p : Path) {node : FileNode} (hy : w.files.at? y = some node) :
    ((makeParent p).after w).files.at? y = some node := by
  rw [makeParent]
  cases p.parent? with
  | none => exact hy
  | some q => exact makeDirectories_kept hw q hy

/-- A copy that succeeds has changed the file that its target denotes under the directories made for it. -/
theorem copy_ends (hw : w.files.WellFormed) (h : copy source target w = .ok () w') : ∃ w₁ place loc bytes,
    makeParent target w = .ok () w₁ ∧ w₁.files.resolve w₁.cwd true target = .ok place ∧
      (∀ loc node, place = .found loc node → node.IsFile) ∧ w₁.files.found w₁.cwd source = .ok (loc, .file bytes) ∧
      (∀ y, y ≠ place.location → w'.files.at? y = w₁.files.at? y) ∧
      w'.files.at? place.location = some (.file (if loc = place.location then .empty else bytes)) := by
  obtain ⟨u, w₁, hparent, h₁⟩ := bind_eq_ok h
  obtain ⟨v, w₂, htell, h₂⟩ := bind_eq_ok h₁
  cases htell
  obtain ⟨fs', hcopy, rfl⟩ := change_ok h₂
  have hwritten := makeParent_written target w (.refl hw)
  rw [after_ok hparent] at hwritten
  obtain ⟨place, loc, bytes, hr, hfile, hsource, hother, hself⟩ := copy_place hwritten.wellFormed hcopy
  exact ⟨w₁, place, loc, bytes, hparent, hr, hfile, hsource, hother, hself⟩

/-- A file that a copy does not uncover keeps its bytes, whether or not the copy succeeds. -/
theorem emit_keeps_file (hlinks : options.links = []) (hw : w.files.WellFormed) (hy : w.files.at? y = some (.file bytes))
    (hnot : ¬ Uncovers target w y) : ((emit options source target).after w).files.at? y = some (.file bytes) := by
  cases hthere : w.files.pathExists w.cwd target with
  | true =>
      rw [after, emit_unlinked hlinks, if_pos hthere]
      exact hy
  | false =>
      rw [after, emit_unlinked hlinks, if_neg (by simp [hthere]), ← after]
      let J : FileSystem → Prop := fun fs => fs.at? y = some (.file bytes)
      refine bind_keeps (J := J) (makeParent_kept hw target hy) fun _ w₁ hparent hkept => ?_
      have hw₁ := makeParent_written target w (.refl hw)
      rw [after_ok hparent] at hw₁
      refine bind_keeps (J := J) hkept fun _ w₂ htell _ => ?_
      cases htell
      refine change_keeps (J := J) hkept fun fs' hcopy => ?_
      obtain ⟨place, loc, old, hr, hfile, -, hother, -⟩ := copy_place hw₁.wellFormed hcopy
      show fs'.at? y = _
      rw [hother y ?_]
      · exact hkept
      rintro rfl
      cases place with
      | vacant parent name slashed => cases hkept.symm.trans (leads_of_resolve hr).vacancy.2.2
      | found z node =>
          obtain ⟨old, rfl⟩ := hfile z node rfl
          exact hnot ⟨hthere, w₁, old, hparent, found_eq_ok.2 hr⟩

/-- One that it does uncover is replaced, or emptied if it is the source itself. -/
theorem emit_uncovers (hlinks : options.links = []) (hw : w.files.WellFormed) (h : Uncovers target w y)
    (hrun : emit options source target w = .ok () w') : ∃ loc bytes w₁, makeParent target w = .ok () w₁ ∧
      w₁.files.found w₁.cwd source = .ok (loc, .file bytes) ∧
      w'.files.at? y = some (.file (if loc = y then .empty else bytes)) := by
  obtain ⟨hthere, w₁, old, hparent, hfound⟩ := h
  rw [emit_unlinked hlinks, if_neg (by simp [hthere])] at hrun
  obtain ⟨w₂, place, loc, bytes, hparent₂, hr, -, hsource, -, hself⟩ := copy_ends hw hrun
  cases hparent.symm.trans hparent₂
  cases hr.symm.trans (found_eq_ok.1 hfound)
  exact ⟨loc, bytes, w₁, hparent, hsource, hself⟩

/-- Once the output has been made, the path to it leads to a directory. -/
theorem prepare_in_place (hw : w.files.WellFormed) (hp : plan.output.Spells base) (h : prepare plan false w = .ok () w') :
    Written w.files w'.files ∧ ∃ d, w'.files.Reaches base d := by
  obtain ⟨u, w₁, hmake, htell⟩ := bind_eq_ok h
  replace hmake : Action.makeDirectories plan.output w = .ok u w₁ := hmake
  cases htell
  have hmade := makeDirectories_written plan.output w (.refl hw)
  rw [after_ok hmake] at hmade
  obtain ⟨fs, hlevels, rfl⟩ := changePart_ok hmake
  exact ⟨hmade, reaches_of_makeLevels hw hp hlevels⟩

section

variable (hw : w.files.WellFormed) (hcwd : ∀ s ∈ w.cwd, IsName s) (hclean : options.clean = false)
  (hv : validate options w = .ok plan w₁) (hprepare : prepare plan options.clean w₁ = .ok () w₂)

include hw hcwd hclean hv hprepare

/-- Without a double dot in an expanded name nothing is uncovered: the output is there before anything is copied. -/
theorem up_mem_of_uncovers (hx : x ∈ visited plan options w₂) (h : Uncovers x.target x.world y) :
    ".." ∈ spelled x.trail := by
  obtain ⟨hfiles, -, hlocation, -⟩ := validate_ok hv
  obtain ⟨base, hp⟩ := outputLocation_spells hw hcwd hlocation
  rw [hclean] at hprepare
  obtain ⟨hwritten, d, hr⟩ := prepare_in_place (hfiles ▸ hw) hp hprepare
  have hthen : Written w₂.files x.world.files := (handed_written (.refl hwritten.wellFormed)).1 x hx
  have hleads := handed_leads hx
  have htarget : x.target = plan.output.descend x.trail := by
    rw [hleads.target, hclean]
    rfl
  obtain ⟨r, habs⟩ := hp.absolute
  obtain ⟨ha, base', names, hl, hbase, hnames⟩ := descend_stretches (by simp [isAbsolute, habs])
    (hp.stretches.trans (List.append_nil _).symm) x.trail
  rw [← htarget] at ha hl
  obtain ⟨hthere, w₄, bytes, hparent, hfound⟩ := h
  by_contra hup
  have hup' : ".." ∉ names := fun hc => hup (by simpa using hnames ".." hc)
  obtain ⟨d', hr', hdot⟩ : ∃ d', x.world.files.Reaches base' d' ∧ "." ∉ base' := by
    rcases hbase with rfl | rfl
    · exact ⟨d, hr.mono hthen.outgrows, hp.noHere⟩
    · exact ⟨[], .stop rfl, List.not_mem_nil⟩
  rw [makeParent] at hparent
  cases hq : x.target.parent? with
  | none =>
      rw [hq] at hparent
      cases hparent
      rw [pathExists, hfound] at hthere
      cases hthere
  | some q =>
      rw [hq] at hparent
      obtain ⟨fs', hlevels', rfl⟩ := changePart_ok hparent
      exact not_found_of_makeParent hthen.wellFormed hr' hdot ha hl hup' hthere hq hlevels' hfound

end

/-- What the making of the output and each of the copies keep, a build that only copies keeps. -/
theorem build_in_place_keeps {J : FileSystem → Prop} (hclean : options.clean = false) (hhash : options.hash = false)
    (hw : J w.files)
    (hmake : ∀ (p : Path) (w₁ : World), J w₁.files → J ((Action.makeDirectories p).after w₁).files)
    (hemit : ∀ plan w₁ w₂, validate options w = .ok plan w₁ → prepare plan options.clean w₁ = .ok () w₂ →
      ∀ x ∈ visited plan options w₂, J x.world.files → J ((emit x.options x.source x.target).after x.world).files) :
    J ((build options).after w).files := by
  refine bind_keeps (validate_keeps options w hw) fun plan w₁ hv hw₁ => ?_
  refine bind_keeps ?_ fun _ w₂ hprepare hw₂ => ?_
  · rw [hclean]
    exact bind_keeps (hmake plan.output w₁ hw₁) fun _ _ _ hw₂ => hw₂
  · refine bind_keeps ?_ fun _ _ _ hw₃ => hw₃
    have hrender := (handed_keeps hw₂ (hemit plan w₁ w₂ hv hprepare)).2
    rw [carryOut, hclean]
    rw [hclean] at hrender
    refine bind_keeps ?_ fun _ w₃ _ hw₃ => ?_
    · rw [Plan.inner, hclean] at hrender ⊢
      exact hrender
    · rw [if_neg (by simp [Plan.inner, hhash])]
      exact hw₃

/-- A build that only copies, straight into the output, keeps every directory and every link, whether or not it succeeds.
It keeps the bytes of every file too, but of one that a copy uncovers. Then an expanded name has a double dot, and the
copy puts the bytes of the source there, or none if the file is the source. -/
theorem build_keeps_all_but_uncovered (hw : w.files.WellFormed) (hcwd : ∀ s ∈ w.cwd, IsName s)
    (hclean : options.clean = false) (hlinks : options.links = []) (hhash : options.hash = false) :
    Written w.files ((build options).after w).files ∧
    (∀ y bytes, w.files.at? y = some (.file bytes) → ((build options).after w).files.at? y = some (.file bytes) ∨
      ∃ plan w₁ w₂, validate options w = .ok plan w₁ ∧ prepare plan options.clean w₁ = .ok () w₂ ∧
        ∃ x ∈ visited plan options w₂, Uncovers x.target x.world y) ∧
    ∀ plan w₁ w₂, validate options w = .ok plan w₁ → prepare plan options.clean w₁ = .ok () w₂ →
      ∀ x ∈ visited plan options w₂, ∀ y, Uncovers x.target x.world y → ".." ∈ spelled x.trail ∧
        ∀ w', emit x.options x.source x.target x.world = .ok () w' → ∃ loc bytes w₃,
          makeParent x.target x.world = .ok () w₃ ∧ w₃.files.found w₃.cwd x.source = .ok (loc, .file bytes) ∧
            w'.files.at? y = some (.file (if loc = y then .empty else bytes)) := by
  have hcopies : ∀ {plan w₂} {x : Handover}, x ∈ visited plan options w₂ → x.options.links = [] := by
    intro plan w₂ x hx
    rw [(handed_leads hx).kept]
    exact hlinks
  refine ⟨?_, fun y bytes hy => ?_, fun plan w₁ w₂ hv hprepare x hx y hun => ?_⟩
  · exact build_in_place_keeps hclean hhash (.refl hw) (fun p w₁ => makeDirectories_written p w₁)
      fun _ _ _ _ _ x _ => emit_keeps writes_anywhere x.options x.source trivial x.world
  · by_cases hnot : ∀ plan w₁ w₂, validate options w = .ok plan w₁ → prepare plan options.clean w₁ = .ok () w₂ →
        ∀ x ∈ visited plan options w₂, ¬ Uncovers x.target x.world y
    · let J : FileSystem → Prop := fun fs => fs.WellFormed ∧ fs.at? y = some (.file bytes)
      have hkept : J ((build options).after w).files := by
        refine build_in_place_keeps hclean hhash ⟨hw, hy⟩ (fun p w₁ h => ?_) fun plan w₁ w₂ hv hp x hx h => ?_
        · exact ⟨(makeDirectories_written p w₁ (.refl h.1)).wellFormed, makeDirectories_kept h.1 p h.2⟩
        · exact ⟨(emit_keeps writes_anywhere x.options x.source trivial x.world (.refl h.1)).wellFormed,
            emit_keeps_file (hcopies hx) h.1 h.2 (hnot plan w₁ w₂ hv hp x hx)⟩
      exact .inl hkept.2
    · push Not at hnot
      obtain ⟨plan, w₁, w₂, hv, hprepare, x, hx, hun⟩ := hnot
      exact .inr ⟨plan, w₁, w₂, hv, hprepare, x, hx, hun⟩
  · refine ⟨up_mem_of_uncovers hw hcwd hclean hv hprepare hx hun, fun w' hrun => ?_⟩
    obtain ⟨hfiles, -, hlocation, -⟩ := validate_ok hv
    obtain ⟨base, hp⟩ := outputLocation_spells hw hcwd hlocation
    rw [hclean] at hprepare
    have hmade := (prepare_in_place (hfiles ▸ hw) hp hprepare).1
    have hthen := (handed_written (.refl hmade.wellFormed)).1 x hx
    exact emit_uncovers (hcopies hx) hthen.wellFormed hun hrun

/-- A file that is to be copied to `x/../a.txt`, where there is no `x`, and a file with the place that this leads to. -/
def coveredTarget : World :=
  ⟨⟨[(["src", "[v]"], .file "new".toUTF8), (["src"], .directory), (["out", "a.txt"], .file "old".toUTF8),
    (["out", "b.txt"], .file "kept".toUTF8), (["out"], .directory)]⟩, [], []⟩

def copyOver : Options := ⟨⟨"src"⟩, ⟨"out"⟩, .ofPairs [("v", .text "x/../a.txt")], [], [], false, false⟩

theorem coveredTarget_uncovered : ∃ plan w₁ w₂, validate copyOver coveredTarget = .ok plan w₁ ∧
    prepare plan copyOver.clean w₁ = .ok () w₂ ∧ ∃ x ∈ visited plan copyOver w₂,
      Uncovers x.target x.world ["out", "a.txt"] ∧ ".." ∈ spelled x.trail ∧
        Written coveredTarget.files ((build copyOver).after coveredTarget).files := by
  obtain ⟨plan, w₁, hv, hrest⟩ := yields_iff.1 (show yields (validate copyOver) coveredTarget (fun plan w₁ =>
    yields (prepare plan copyOver.clean) w₁ fun _ w₂ => (visited plan copyOver w₂).any fun x =>
      !x.world.files.pathExists x.world.cwd x.target && yields (makeParent x.target) x.world fun _ w' =>
        decide ((w'.files.found w'.cwd x.target).toOption = some (["out", "a.txt"], .file "old".toUTF8))) = true
    by decide +kernel)
  obtain ⟨u, w₂, hprepare, hrest⟩ := yields_iff.1 hrest
  obtain ⟨x, hx, hrest⟩ := List.any_eq_true.1 hrest
  rw [Bool.and_eq_true, Bool.not_eq_true'] at hrest
  obtain ⟨v, w', hparent, hfound⟩ := yields_iff.1 hrest.2
  have hun : Uncovers x.target x.world ["out", "a.txt"] := by
    refine ⟨hrest.1, w', "old".toUTF8, hparent, ?_⟩
    replace hfound := of_decide_eq_true hfound
    cases hf : w'.files.found w'.cwd x.target with
    | error cause => rw [hf] at hfound; cases hfound
    | ok there => rw [hf] at hfound; exact congrArg Except.ok (Option.some.inj hfound)
  obtain ⟨hwritten, -, hall⟩ := @build_keeps_all_but_uncovered copyOver coveredTarget
    (by decide +kernel) (by decide) rfl rfl rfl
  exact ⟨plan, w₁, w₂, hv, hprepare, x, hx, hun, (hall plan w₁ w₂ hv hprepare x hx _ hun).1, hwritten⟩

/-- A build that is to keep what is there replaces a file, and it succeeds. -/
theorem coveredTarget_lost : coveredTarget.files.at? ["out", "a.txt"] = some (.file "old".toUTF8) ∧
    ∃ report w', build copyOver coveredTarget = .ok report w' ∧
      w'.files.at? ["out", "a.txt"] = some (.file "new".toUTF8) := by
  obtain ⟨report, w', hrun, hat⟩ := yields_iff.1 (show yields (build copyOver) coveredTarget (fun _ w' =>
    decide (w'.files.at? ["out", "a.txt"] = some (.file "new".toUTF8))) = true by decide +kernel)
  exact ⟨by decide +kernel, report, w', hrun, of_decide_eq_true hat⟩

end SiteTree.Build
