import SiteTree.Proofs.Build.Layout
import SiteTree.Proofs.Walk.Literal
import SiteTree.Proofs.Walk.Verbatim

/-!
Clean builds without links. Every file of the output is a copy of the first file of the source that has its
place for a target, and a source tree of literal names is reproduced.
-/

namespace SiteTree.Build

open SiteTree.Action FileSystem SiteTree.Path Walk EntryName

variable {options : Options} {plan : Plan} {report : Report} {start : FileSystem} {w w' w₁ w₂ : World}
  {l rel : List String} {loc x : Location} {name : String} {hashed : Asset.Renames} {n : Nat}

/-- Every name that the build puts into a target is a name of one component. -/
def ExpandsToNames (options : Options) (w : World) : Prop :=
  ∀ plan w₁ w₂, validate options w = .ok plan w₁ → prepare plan options.clean w₁ = .ok () w₂ →
    MeetsOnly IsName (plan.limits options.clean) maxNesting (plan.inner options) plan.source
      (plan.root options.clean) w₂

theorem ExpandsPlain.names (h : ExpandsPlain options w) : ExpandsToNames options w :=
  fun plan w₁ w₂ hv hp e he hloop => (h plan w₁ w₂ hv hp e he hloop).isName

theorem carryOut_ok (hclean : options.clean = true) (h : carryOut plan options w = .ok hashed w') :
    ∃ w₁ events, produce (plan.limits true) (plan.inner options) w = .ok hashed w₁ ∧
      publish plan.staging plan.output { w₁ with events := events } = .ok () w' := by
  rw [carryOut_clean plan hclean] at h
  cases hrun : produce (plan.limits true) (plan.inner options) w with
  | error e w₁ =>
      obtain ⟨w₂, hbuild, -⟩ := buildClean_error hrun plan.output plan.staging
      cases hbuild.symm.trans h
  | ok hashed' w₁ =>
      obtain ⟨events, hbuild⟩ := buildClean_ok hrun plan.output plan.staging
      obtain ⟨u, w₂, hpub, hret⟩ := bind_eq_ok (hbuild.symm.trans h)
      cases hret
      exact ⟨w₁, events, rfl, hpub⟩

/-- What a clean build that succeeds has done: all was produced in the staging directory, and that was published. -/
structure Finished (options : Options) (plan : Plan) (start : FileSystem) (l : List String) (name : String) (dir : Location)
    (w₁ w₂ w₃ w' : World) : Prop where
  prepared : prepare plan true w₁ = .ok () w₂
  staged : Staged start w₂.files l name dir
  produced : ∃ hashed, produce (plan.limits true) (plan.inner options) w₂ = .ok hashed w₃
  published : Confined (l ++ [hiddenName name]) (dir ++ [hiddenName name]) w₂.files w₃.files →
    Published w₃.files w'.files dir name

theorem build_finished (hw : w.files.WellFormed) (hclean : options.clean = true) (hv : validate options w = .ok plan w₁)
    (hp : Placed w.files plan.output l name) (h : build options w = .ok report w') : report.outputRoot = plan.output ∧
      ∃ dir w₂ w₃, Finished options plan w.files l name dir w₁ w₂ w₃ w' := by
  obtain ⟨hfiles, -⟩ := validate_ok hv
  rw [← hfiles] at hw hp ⊢
  replace h := (build_of_plan hv).symm.trans h
  rw [hclean] at h
  rcases prepare_cases hw hp w.cwd with ⟨w₂, hprep, ⟨dir, hst⟩, -⟩ | ⟨e, w₂, hprep, -⟩
  · obtain ⟨hashed, w₄, hcarry, hrest⟩ := bind_eq_ok ((bind_ok hprep).symm.trans h)
    obtain ⟨u, w₅, ht, hr⟩ := bind_eq_ok hrest
    cases ht
    cases hr
    obtain ⟨w₃, events, hproduce, hpub⟩ := carryOut_ok hclean hcarry
    refine ⟨rfl, dir, w₂, w₃, hprep, hst, ⟨hashed, hproduce⟩, fun hc => ?_⟩
    rcases publish_cases (w := { w₃ with events := events }) hw hp hst hc with
      ⟨w₆, hfail, -⟩ | ⟨w₆, hdone, hpublished, -⟩
    · cases hfail.symm.trans hpub
    · cases hdone.symm.trans hpub
      exact hpublished
  · cases (bind_error hprep).symm.trans h

/-- What a clean build that succeeds has rendered, and that it is what is published. -/
structure Rendered (options : Options) (plan : Plan) (start : FileSystem) (l : List String) (name : String)
    (w₂ w₃ w' : World) : Prop where
  placed : Placed start plan.output l name
  staged : Staged start w₂.files l name l
  linkFree : w₂.files.LinkFree []
  run : render (plan.limits true) maxNesting (plan.inner options) plan.source plan.staging w₂ = .ok () w₃
  published : Confined (l ++ [hiddenName name]) (l ++ [hiddenName name]) w₂.files w₃.files →
    Published w₃.files w'.files l name

theorem build_rendered (hw : w.files.WellFormed) (hfree : w.files.LinkFree []) (hcwd : ∀ s ∈ w.cwd, IsName s)
    (hclean : options.clean = true) (hhash : options.hash = false) (hup : .up ∉ options.outputRoot.components)
    (hv : validate options w = .ok plan w₁) (h : build options w = .ok report w') : report.outputRoot = plan.output ∧
      ∃ l name w₂ w₃, prepare plan true w₁ = .ok () w₂ ∧ Rendered options plan w.files l name w₂ w₃ w' := by
  obtain ⟨l, name, hp⟩ := placed_of_validate hw hcwd hup hv
  obtain ⟨hreport, dir, w₂, w₃, hprep, hst, ⟨hashed, hproduce⟩, hpublished⟩ := build_finished hw hclean hv hp h
  obtain ⟨hfiles, -⟩ := validate_ok hv
  have hfree₂ : w₂.files.LinkFree [] :=
    (prepare_confined ⟨hfiles ▸ hw, hfiles ▸ hfree⟩ hp.spells hprep).1
  obtain rfl : dir = l := hst.eq_of_linkFree hp hfree₂
  have hrender := produce_unhashed (show (plan.inner options).hash = false from hhash) hproduce
  rw [inner_outputRoot plan hclean] at hrender
  exact ⟨hreport, dir, name, w₂, w₃, hprep, hp, hst, hfree₂, hrender, hpublished⟩

/-- The files that have been made are published where the layout has them, with the bytes of the first of their
target. -/
theorem Rendered.copied {w₃ : World} (h : Rendered options plan start l name w₂ w₃ w') (hw : start.WellFormed)
    (hs : plan.source.Spells loc) (hd : start.at? loc = some .directory) (hoff : ¬ l ++ [hiddenName name] <+: loc)
    (hlinks : options.links = [])
    (hnames : MeetsOnly IsName (plan.limits true) maxNesting (plan.inner options) plan.source plan.staging w₂)
    (hn : maxNesting ≤ n) :
    Laid (l ++ [name]) ((contributions (plan.limits true) start plan.source loc n [] [] options.scope).map (·.target))
        w'.files ∧
      FirstCopied start (l ++ [name]) (contributions (plan.limits true) start plan.source loc n [] [] options.scope)
        w'.files := by
  let K := (stagedSetup h.placed h.staged hs h.linkFree options.links).copying hlinks
  have hstart : K.holds [] w₂.files := by
    refine ⟨laid_staged h.staged, fun k bytes hk => ?_⟩
    obtain ⟨hmem, -⟩ := ((laid_staged h.staged).file k).1 ⟨bytes, hk⟩
    cases hmem
  obtain ⟨hconfined, hlaid, hfirst⟩ := staged_holds (K := K) h.placed h.staged hs hd hoff hw hnames hstart h.run hn
  have hmoved := (h.published hconfined).moved
  refine ⟨hlaid.moved hmoved, fun k bytes hk => ?_⟩
  obtain ⟨c, hc, hat⟩ := hfirst.moved hmoved k bytes hk
  replace hat : w₂.files.at? c.source = some (.file bytes) := hat
  refine ⟨c, hc, ?_⟩
  -- No file of the source is in the staging directory, which was empty.
  by_cases hst : l ++ [hiddenName name] <+: c.source
  · by_cases he : c.source = l ++ [hiddenName name]
    · rw [he, h.staged.confined.directory] at hat
      cases hat
    · rw [h.staged.empty _ hst he] at hat
      cases hat
  · rcases h.staged.grown _ hst with he | ⟨-, he⟩
    · rwa [← he]
    · rw [he] at hat
      cases hat

/-- Neither at nor below the output or the staging directory. -/
def OffOutput (plan : Plan) (x : Location) : Prop := ¬ settled plan.output <+: x ∧ ¬ settled plan.staging <+: x

instance (plan : Plan) (x : Location) : Decidable (OffOutput plan x) := instDecidableAnd

/-- Off the output, every name of the source tree is literal and nothing is ignored. -/
def LiteralTree (plan : Plan) (fs : FileSystem) : Prop :=
  ∀ rel, rel ≠ [] → (fs.at? (settled plan.source ++ rel)).isSome → OffOutput plan (settled plan.source ++ rel) →
    (∀ s ∈ rel, form s = .literal) ∧ plan.ignore.hides ⟨"/".intercalate rel⟩ = false

theorem literalTree_iff {fs : FileSystem} : LiteralTree plan fs ↔
    ∀ e ∈ fs.entries, settled plan.source <+: e.1 → e.1 ≠ settled plan.source → OffOutput plan e.1 →
      (∀ s ∈ e.1.drop (settled plan.source).length, form s = .literal) ∧
        plan.ignore.hides ⟨"/".intercalate (e.1.drop (settled plan.source).length)⟩ = false := by
  constructor
  · rintro h ⟨x, node⟩ he ⟨rel, rfl⟩ hne hoff
    have hrel : rel ≠ [] := fun hnil => hne (by simp [hnil])
    have hat := at?_isSome_of_mem he (by simp [hrel])
    simpa using h rel hrel hat hoff
  · intro h rel hrel hat hoff
    obtain ⟨e, he, hloc⟩ := mem_of_at?_isSome (by simp [hrel]) hat
    have hlisted := h e he (hloc ▸ List.prefix_append _ _) (by simpa [hloc] using hrel) (hloc ▸ hoff)
    simpa [hloc] using hlisted

instance (plan : Plan) (fs : FileSystem) : Decidable (LiteralTree plan fs) := decidable_of_iff' _ literalTree_iff

theorem passedOver_iff {fs : FileSystem} (hp : Placed fs plan.output l name)
    (hs : plan.source.Spells (settled plan.source)) (hrel : ∀ s ∈ rel, IsName s) :
    passedOver (plan.limits true) plan.source rel = true ↔ settled plan.output = settled plan.source ++ rel ∨
      settled plan.staging = settled plan.source ++ rel ∨ plan.ignore.hides ⟨"/".intercalate rel⟩ = true := by
  obtain ⟨hout, hstaging⟩ :
      settled plan.output = l ++ [name] ∧ settled plan.staging = l ++ [hiddenName name] := hp.settled_eq
  have hspells := hs.descend hrel
  have hoalike := (hout ▸ hp.spells : plan.output.Spells (settled plan.output)).alike_iff hspells
  have hsalike := (hstaging ▸ hp.staging.1 : plan.staging.Spells (settled plan.staging)).alike_iff hspells
  simp [passedOver, Plan.limits, hoalike, hsalike, or_assoc]

section

variable (hw : w.files.WellFormed) (hfree : w.files.LinkFree []) (hp : Placed w.files plan.output l name)
  (hs : plan.source.Spells (settled plan.source)) (hsource : OffOutput plan (settled plan.source))
  (hlit : LiteralTree plan w.files)

include hw hp hs hsource hlit

/-- In such a tree the walk comes to all that is off the output. -/
theorem entered_iff (hrel : (w.files.at? (settled plan.source ++ rel)).isSome) :
    Entered (plan.limits true) plan.source rel ↔ OffOutput plan (settled plan.source ++ rel) := by
  have hnames : ∀ k, k <+: rel → ∀ s ∈ k, IsName s := fun k hk s hsk => names_below hw hrel s (hk.subset hsk)
  constructor
  · intro h
    obtain ⟨hout, hstaging⟩ :
        settled plan.output = l ++ [name] ∧ settled plan.staging = l ++ [hiddenName name] := hp.settled_eq
    exact ⟨h.off (fun k he => passedOver_output hp hs true k (he.trans hout)) hsource.1,
      h.off (fun k he => passedOver_staging hp hs k (he.trans hstaging)) hsource.2⟩
  · intro h k hk hkr
    have hpre : settled plan.source ++ k <+: settled plan.source ++ rel := (List.prefix_append_right_inj _).2 hkr
    have hoff : OffOutput plan (settled plan.source ++ k) := ⟨fun hc => h.1 (hc.trans hpre), fun hc => h.2 (hc.trans hpre)⟩
    have hsome : (w.files.at? (settled plan.source ++ k)).isSome := by
      obtain ⟨r, rfl⟩ := hkr
      exact hw.isSome_above (by rwa [List.append_assoc])
    rw [Bool.eq_false_iff, ne_eq, passedOver_iff hp hs (hnames k hkr)]
    rintro (he | he | hhides)
    · exact hoff.1 (he ▸ List.prefix_rfl)
    · exact hoff.2 (he ▸ List.prefix_rfl)
    · rw [(hlit k hk hsome hoff).2] at hhides
      cases hhides

theorem literalBelow : LiteralBelow (plan.limits true) w.files plan.source (settled plan.source) := by
  intro rel hsome hentered s hmem
  exact (hlit rel (List.ne_nil_of_mem hmem) hsome ((entered_iff hw hp hs hsource hlit hsome).1 hentered)).1 s hmem

include hfree

/-- The files of such a tree, as far down as one looks. -/
theorem mem_sourceFiles {c : Contribution} : c ∈ sourceFiles plan options w.files n ↔
    ∃ rel, rel ≠ [] ∧ rel.length ≤ n ∧ c = ⟨settled plan.source ++ rel, rel, options.scope⟩ ∧
      (∃ bytes, w.files.at? (settled plan.source ++ rel) = some (.file bytes)) ∧
      OffOutput plan (settled plan.source ++ rel) := by
  have hnil : Entered (plan.limits true) plan.source [] := fun k hk hpre => absurd (List.prefix_nil.1 hpre) hk
  rw [sourceFiles, mem_contributions_literal hw hfree (literalBelow hw hp hs hsource hlit) hnil]
  simp only [List.nil_append]
  refine exists_congr fun rel => and_congr_right fun _ => and_congr_right fun _ => and_congr_right fun _ =>
    and_congr_right fun hfile => ?_
  obtain ⟨bytes, hb⟩ := hfile
  exact entered_iff hw hp hs hsource hlit (by rw [hb]; rfl)

/-- What has been copied from such a tree is the tree. -/
theorem copied_iff {out : Location} {fs' : FileSystem} {bytes : ByteArray}
    (hd : w.files.at? (settled plan.source) = some .directory)
    (hcopied : ∀ n, maxNesting ≤ n → Laid out ((sourceFiles plan options w.files n).map (·.target)) fs' ∧
      FirstCopied w.files out (sourceFiles plan options w.files n) fs') :
    fs'.at? (out ++ rel) = some (.file bytes) ↔
      w.files.at? (settled plan.source ++ rel) = some (.file bytes) ∧ OffOutput plan (settled plan.source ++ rel) := by
  have hfirst : ∀ bytes, fs'.at? (out ++ rel) = some (.file bytes) →
      w.files.at? (settled plan.source ++ rel) = some (.file bytes) ∧ OffOutput plan (settled plan.source ++ rel) := by
    intro bytes hb
    obtain ⟨c, hc, hat⟩ := (hcopied maxNesting le_rfl).2 rel bytes hb
    obtain ⟨rel', -, -, rfl, -, hoff⟩ := (mem_sourceFiles hw hfree hp hs hsource hlit).1 (List.mem_of_find?_eq_some hc)
    obtain rfl : rel' = rel := by simpa using List.find?_some hc
    exact ⟨hat, hoff⟩
  refine ⟨hfirst bytes, ?_⟩
  rintro ⟨hat, hoff⟩
  have hne : rel ≠ [] := by
    rintro rfl
    rw [List.append_nil, hd] at hat
    cases hat
  obtain ⟨hlaid, -⟩ := hcopied (max maxNesting rel.length) (le_max_left _ _)
  have hmem : rel ∈ (sourceFiles plan options w.files (max maxNesting rel.length)).map (·.target) :=
    List.mem_map.2 ⟨_, (mem_sourceFiles hw hfree hp hs hsource hlit).2
      ⟨rel, hne, le_max_right _ _, rfl, ⟨bytes, hat⟩, hoff⟩, rfl⟩
  -- Below a file of the source there is nothing, so there is no other place below this one.
  have hlast : ∀ k ∈ (sourceFiles plan options w.files (max maxNesting rel.length)).map (·.target), rel <+: k → k = rel := by
    intro k hk hpre
    obtain ⟨c, hc, rfl⟩ := List.mem_map.1 hk
    obtain ⟨k, -, -, rfl, ⟨bytes', hat'⟩, -⟩ := (mem_sourceFiles hw hfree hp hs hsource hlit).1 hc
    obtain ⟨r, rfl⟩ := hpre
    by_contra hr
    have hr' : r ≠ [] := by
      rintro rfl
      exact hr (List.append_nil rel)
    have hdir : w.files.at? (settled plan.source ++ rel) = some .directory :=
      hw.above hr' (by rw [List.append_assoc, hat']; rfl)
    rw [hat] at hdir
    cases hdir
  obtain ⟨bytes', hb⟩ := (hlaid.file rel).2 ⟨hmem, hlast⟩
  have hsame := (hfirst bytes' hb).1
  rw [hat] at hsame
  rw [hb, hsame]

end

/-- If a clean build without links and renaming succeeds, then every file of its output has the bytes of the first
file of the source, in the order of the walk, that has its place for a target. A source tree of literal names, of
which nothing is ignored, is reproduced byte for byte, apart from what is in the build's own directories. -/
theorem build_copies_first (hw : w.files.WellFormed) (hfree : w.files.LinkFree []) (hcwd : ∀ s ∈ w.cwd, IsName s)
    (hclean : options.clean = true) (hhash : options.hash = false) (hlinks : options.links = [])
    (hup : .up ∉ options.outputRoot.components) (hnames : ExpandsToNames options w)
    (hv : validate options w = .ok plan w₁) (hsource : ¬ settled plan.staging <+: settled plan.source)
    (h : build options w = .ok report w') : report.outputRoot = plan.output ∧
      (∀ n, maxNesting ≤ n → ∀ rel bytes, w'.files.at? (settled plan.output ++ rel) = some (.file bytes) →
        ∃ c, (sourceFiles plan options w.files n).find? (·.target = rel) = some c ∧
          w.files.at? c.source = some (.file bytes)) ∧
      (LiteralTree plan w.files → ∀ rel bytes, w'.files.at? (settled plan.output ++ rel) = some (.file bytes) ↔
        w.files.at? (settled plan.source ++ rel) = some (.file bytes) ∧ OffOutput plan (settled plan.source ++ rel)) := by
  obtain ⟨hs, hd⟩ := source_of_validate hw hv
  obtain ⟨hreport, l, name, w₂, w₃, hprep, hr⟩ := build_rendered hw hfree hcwd hclean hhash hup hv h
  obtain ⟨hout, hstaging⟩ :
      settled plan.output = l ++ [name] ∧ settled plan.staging = l ++ [hiddenName name] := hr.placed.settled_eq
  have hnames₂ := hnames plan w₁ w₂ hv (hclean ▸ hprep)
  rw [hclean] at hnames₂
  have hstarts : ¬ settled plan.output <+: settled plan.source := by
    obtain ⟨-, -, -, hstarts⟩ := validate_ok hv
    rw [← hs.startsWith_iff (hout ▸ hr.placed.spells), hstarts]
    exact Bool.false_ne_true
  have hcopied : ∀ n, maxNesting ≤ n →
      Laid (settled plan.output) ((sourceFiles plan options w.files n).map (·.target)) w'.files ∧
        FirstCopied w.files (settled plan.output) (sourceFiles plan options w.files n) w'.files := fun n hn =>
    hout ▸ hr.copied hw hs hd (hstaging ▸ hsource) hlinks hnames₂ hn
  refine ⟨hreport, fun n hn => (hcopied n hn).2, fun hlit rel bytes => ?_⟩
  exact copied_iff hw hfree hr.placed hs ⟨hstarts, hsource⟩ hlit hd hcopied

/-- A clean build that only copies. -/
def plainCopy (source output : String) (scope : Scope) : Options := ⟨⟨source⟩, ⟨output⟩, scope, [], [], true, false⟩

def copyTags : Options := plainCopy "src" "site" (.ofPairs [("tags", .list [.text "a", .text "b"])])

/-- A note for each tag, and a later file that is named like the note for `a`. -/
def tagNotes : World :=
  ⟨⟨[(["src", "[tag of tags]", "[tag].txt"], .file "note".toUTF8), (["src", "[tag of tags]"], .directory),
    (["src", "a.txt"], .file "own".toUTF8), (["src"], .directory)]⟩, [], []⟩

def copyInto : Options := plainCopy "src" "src/out" .empty

/-- A source that holds the output of an earlier build. -/
def heldOutput : World :=
  ⟨⟨[(["src", "a.txt"], .file "x".toUTF8), (["src", "out", "old.txt"], .file "old".toUTF8),
    (["src", "out"], .directory), (["src"], .directory)]⟩, [], []⟩

theorem heldOutput_names : ExpandsToNames copyInto heldOutput := ExpandsPlain.names (by decide +kernel)

theorem tagNotes_copied : (∃ plan w₁ report w', validate copyTags tagNotes = .ok plan w₁ ∧
      build copyTags tagNotes = .ok report w' ∧
      w'.files.at? (settled plan.output ++ ["a.txt"]) = some (.file "note".toUTF8) ∧
      ∃ c, (sourceFiles plan copyTags tagNotes.files maxNesting).find? (·.target = ["a.txt"]) = some c ∧
        tagNotes.files.at? c.source = some (.file "note".toUTF8)) ∧
    ∃ plan w₁ report w', validate copyInto heldOutput = .ok plan w₁ ∧ LiteralTree plan heldOutput.files ∧
      build copyInto heldOutput = .ok report w' ∧
      w'.files.at? (settled plan.output ++ ["a.txt"]) = some (.file "x".toUTF8) := by
  constructor
  · obtain ⟨plan, w₁, hv, hplan⟩ := yields_iff.1 (show yields (validate copyTags) tagNotes (fun plan _ =>
      !decide (settled plan.staging <+: settled plan.source) && yields (build copyTags) tagNotes fun _ w' =>
        decide (w'.files.at? (settled plan.output ++ ["a.txt"]) = some (.file "note".toUTF8))) = true
      by decide +kernel)
    simp only [Bool.and_eq_true, Bool.not_eq_true', decide_eq_false_iff_not] at hplan
    obtain ⟨hsource, hbuild⟩ := hplan
    obtain ⟨report, w', h, hat⟩ := yields_iff.1 hbuild
    replace hat := of_decide_eq_true hat
    have hnames : ExpandsToNames copyTags tagNotes := ExpandsPlain.names (by decide +kernel)
    obtain ⟨-, hfirst, -⟩ := build_copies_first (by decide +kernel) (by decide +kernel) (by decide) rfl rfl rfl
      (by decide +kernel) hnames hv hsource h
    exact ⟨plan, w₁, report, w', hv, h, hat, hfirst maxNesting le_rfl _ _ hat⟩
  · obtain ⟨plan, w₁, hv, hplan⟩ := yields_iff.1 (show yields (validate copyInto) heldOutput (fun plan _ =>
      decide (¬ settled plan.staging <+: settled plan.source ∧ LiteralTree plan heldOutput.files ∧
        heldOutput.files.at? (settled plan.source ++ ["a.txt"]) = some (.file "x".toUTF8) ∧
        OffOutput plan (settled plan.source ++ ["a.txt"]))) = true by decide +kernel)
    obtain ⟨hsource, hlit, hat, hoff⟩ := of_decide_eq_true hplan
    obtain ⟨report, w', h⟩ := succeeds_iff.1 (show succeeds (build copyInto) heldOutput = true by decide +kernel)
    obtain ⟨-, -, htree⟩ := build_copies_first (by decide +kernel) (by decide +kernel) (by decide) rfl rfl rfl
      (by decide +kernel) heldOutput_names hv hsource h
    exact ⟨plan, w₁, report, w', hv, hlit, h, (htree hlit _ _).2 ⟨hat, hoff⟩⟩

/-- All names are literal and nothing is ignored, but what the earlier build has left is not copied. -/
theorem heldOutput_not_copied : heldOutput.files.WellFormed ∧ heldOutput.files.LinkFree [] ∧
    ExpandsToNames copyInto heldOutput ∧ ∃ plan w₁ report w', validate copyInto heldOutput = .ok plan w₁ ∧
      ¬ settled plan.staging <+: settled plan.source ∧ settled plan.source = ["src"] ∧
      (∀ e ∈ heldOutput.files.entries, (∀ s ∈ e.1, form s = .literal) ∧
        plan.ignore.hides ⟨"/".intercalate (e.1.drop 1)⟩ = false) ∧
      build copyInto heldOutput = .ok report w' ∧
      heldOutput.files.at? (settled plan.source ++ ["out", "old.txt"]) = some (.file "old".toUTF8) ∧
      w'.files.at? (settled plan.output ++ ["out", "old.txt"]) = none := by
  refine ⟨by decide +kernel, by decide +kernel, heldOutput_names, ?_⟩
  obtain ⟨plan, w₁, hv, hplan⟩ := yields_iff.1 (show yields (validate copyInto) heldOutput (fun plan _ =>
    decide (¬ settled plan.staging <+: settled plan.source ∧ settled plan.source = ["src"] ∧
      (∀ e ∈ heldOutput.files.entries, (∀ s ∈ e.1, form s = .literal) ∧
        plan.ignore.hides ⟨"/".intercalate (e.1.drop 1)⟩ = false) ∧
      heldOutput.files.at? (settled plan.source ++ ["out", "old.txt"]) = some (.file "old".toUTF8)) &&
    yields (build copyInto) heldOutput fun _ w' =>
      decide (w'.files.at? (settled plan.output ++ ["out", "old.txt"]) = none)) = true by decide +kernel)
  rw [Bool.and_eq_true] at hplan
  obtain ⟨hsource, hroot, hlit, hat⟩ := of_decide_eq_true hplan.1
  obtain ⟨report, w', h, hnone⟩ := yields_iff.1 hplan.2
  exact ⟨plan, w₁, report, w', hv, hsource, hroot, hlit, h, hat, of_decide_eq_true hnone⟩

end SiteTree.Build
