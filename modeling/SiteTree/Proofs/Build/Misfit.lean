import SiteTree.Proofs.Build.Produce

/-!
Settings that do not fit are told before anything is touched. Checking the options only looks at the files,
and nothing that comes after it can fail on account of the settings: what walks, pages, stylesheets, renames
and the change of the output blame is always a file, a name or a page.
-/

namespace SiteTree

/-- The settings of a build are wrong, or one of its patterns. -/
def Failure.isSettings : Failure → Bool
  | .settings _ => true
  | .pattern _ => true
  | _ => false

/-- Whatever an action fails for, it is not the settings. -/
def PastSettings {σ α : Type} (a : EStateM Failure σ α) : Prop := ∀ s e s', a s = .error e s' → e.isSettings = false

namespace PastSettings

section

variable {σ α β : Type} {a : EStateM Failure σ α}

theorem bind {f : α → EStateM Failure σ β} (ha : PastSettings a) (hf : ∀ v, PastSettings (f v)) :
    PastSettings (a >>= f) := by
  intro s e s' h
  cases hs : a s with
  | ok v s₁ => exact hf v s₁ e s' (by simpa [Bind.bind, EStateM.bind, hs] using h)
  | error e₁ s₁ =>
      obtain ⟨rfl, rfl⟩ : e₁ = e ∧ s₁ = s' := by simpa [Bind.bind, EStateM.bind, hs] using h
      exact ha s e₁ s₁ hs

theorem pure (v : α) : PastSettings (Pure.pure v : EStateM Failure σ α) := nofun

theorem get : PastSettings (MonadState.get : EStateM Failure σ σ) := nofun

theorem set (s : σ) : PastSettings (MonadStateOf.set s : EStateM Failure σ PUnit) := nofun

theorem throw {e : Failure} (he : e.isSettings = false) : PastSettings (MonadExcept.throw e : EStateM Failure σ α) := by
  rintro s e' s' ⟨⟩
  exact he

/-- The members of a list act in turn. -/
theorem forM {f : β → EStateM Failure σ PUnit} {l : List β} (h : ∀ b ∈ l, PastSettings (f b)) :
    PastSettings (l.forM f) := by
  induction l with
  | nil => exact pure _
  | cons b l ih => exact (h b List.mem_cons_self).bind fun _ => ih fun c hc => h c (List.mem_cons_of_mem b hc)

theorem mapM {f : β → EStateM Failure σ α} {l : List β} (h : ∀ b ∈ l, PastSettings (f b)) :
    PastSettings (l.mapM f) := by
  induction l with
  | nil => exact pure _
  | cons b l ih =>
      rw [List.mapM_cons]
      exact (h b List.mem_cons_self).bind fun _ =>
        (ih fun c hc => h c (List.mem_cons_of_mem b hc)).bind fun _ => pure _

end

open SiteTree.Action

variable {α : Type} {path source target root staging output dir : Path} {options : Options} {limits : Walk.Limits}

theorem tell (event : Event) : PastSettings (tell event) := nofun

theorem debug (topic : Topic) (text : String) : PastSettings (debug topic text) := nofun

theorem progress (phase : Phase) (text : String) : PastSettings (progress phase text) := nofun

theorem check (g : FileSystem → Location → Bool) : PastSettings (check g) := nofun

theorem look (g : FileSystem → Location → Except Cause α) {blame : Cause → Failure}
    (hblame : ∀ cause, (blame cause).isSettings = false) : PastSettings (look g blame) := by
  intro w e w' h
  rw [look_eq] at h
  split at h
  · cases h
  · next cause _ =>
    cases h
    exact hblame cause

theorem change (g : FileSystem → Location → Except Cause FileSystem) {blame : Cause → Failure}
    (hblame : ∀ cause, (blame cause).isSettings = false) : PastSettings (change g blame) := by
  intro w e w' h
  rw [change_eq] at h
  split at h
  · cases h
  · next cause _ =>
    cases h
    exact hblame cause

theorem makeDirectories (path : Path) : PastSettings (makeDirectories path) := by
  intro w e w' h
  rw [Action.makeDirectories, changePart_eq] at h
  split at h <;> cases h
  rfl

theorem makeParent (path : Path) : PastSettings (makeParent path) := by
  rw [Action.makeParent]
  cases path.parent? with
  | none => exact pure _
  | some parent => exact makeDirectories parent

theorem writeBytes (path : Path) (bytes : ByteArray) : PastSettings (writeBytes path bytes) := change _ fun _ => rfl

theorem writeText (path : Path) (text : String) : PastSettings (writeText path text) :=
  (makeParent path).bind fun _ => writeBytes path _

theorem copy (source target : Path) : PastSettings (copy source target) :=
  (makeParent target).bind fun _ => (debug _ _).bind fun _ => change _ fun _ => rfl

theorem readBytes (path : Path) : PastSettings (readBytes path) := look _ fun _ => rfl

theorem readText (path : Path) : PastSettings (readText path) := look _ fun _ => rfl

theorem clear (path : Path) : PastSettings (clear path) := by
  refine get.bind fun w => ?_
  split
  · exact set _
  · exact set _
  · exact (set _).bind fun _ => throw rfl

theorem entriesOf (dir : Path) : PastSettings (entriesOf dir) :=
  (look _ fun _ => rfl).bind fun _ => mapM fun _ _ => (look _ fun _ => rfl).bind fun _ => pure _

/-- A name that cannot be expanded is itself to blame. -/
theorem expand (name : String) (scope : Scope) : PastSettings (Action.ofExcept (EntryName.expand name scope)) := by
  have hloop : ∀ loop e, EntryName.runLoop name loop scope = .error e → e.isSettings = false := by
    intro loop e h
    rw [EntryName.runLoop] at h
    split at h
    · cases h
    · split at h
      · cases h
      · split at h <;> cases h
        rfl
  have hfill : ∀ e, EntryName.fill name scope = .error e → e.isSettings = false := by
    intro e h
    rw [EntryName.fill] at h
    split at h <;> cases h
    rfl
  rw [EntryName.expand]
  split
  · next loop _ =>
    cases hrun : EntryName.runLoop name loop scope with
    | ok expansions => exact pure _
    | error e => exact throw (hloop loop e hrun)
  · split
    · exact throw rfl
    · split
      · cases hf : EntryName.fill name scope with
        | ok filled => exact pure _
        | error e => exact throw (hfill e hf)
      · exact pure _

/-! Pages and stylesheets. -/

theorem render (source : Path) (options : Options) : PastSettings (Page.render source options) := by
  refine (readText source).bind fun content => get.bind fun w => ?_
  dsimp only
  split
  · exact pure _
  · exact throw rfl

theorem fetch (path : Path) (x : Except Cause α) : PastSettings (Stylesheet.fetch path x) := by
  cases x with
  | ok a => exact pure a
  | error cause => exact throw rfl

theorem inlinePieces {inline : Path → Stylesheet.Bundling (List Char)} (h : ∀ path, PastSettings (inline path))
    (base : Path) (pieces : List Stylesheet.Piece) : PastSettings (Stylesheet.inlinePieces inline base pieces) := by
  induction pieces with
  | nil => exact pure _
  | cons piece pieces ih =>
      cases piece with
      | char c => exact ih.bind fun rest => pure _
      | rule rule =>
          have hrest : ∀ s : List Char, PastSettings (do
              let rest ← Stylesheet.inlinePieces inline base pieces
              Pure.pure (s ++ rest)) := fun s => ih.bind fun rest => pure _
          rw [Stylesheet.inlinePieces]
          split
          · exact (pure _).bind hrest
          · exact (h _).bind fun s => (pure _).bind hrest

/-- The induction is on how deeply imports may still be nested. -/
theorem inline (fs : FileSystem) (cwd : Location) (n : Nat) (path : Path) :
    PastSettings (Stylesheet.inline fs cwd n path) := by
  induction n generalizing path with
  | zero => exact pure _
  | succ n ih =>
      rw [Stylesheet.inline]
      refine (fetch path _).bind fun canonical => get.bind fun v => ?_
      split
      · exact (set _).bind fun _ => pure _
      · exact (set _).bind fun _ => (fetch path _).bind fun content => inlinePieces ih _ _

theorem bundle (path : Path) : PastSettings (Stylesheet.bundle path) := by
  have htell : ∀ visit, PastSettings (Stylesheet.tellRepeats visit) := fun visit => forM fun _ _ => debug _ _
  refine get.bind fun w => ?_
  have hfile : PastSettings (do
      let s ← Stylesheet.inline w.files w.cwd (w.files.entries.length + 2) path
      Pure.pure (String.ofList s) : Stylesheet.Bundling String) := (inline _ _ _ path).bind fun s => pure _
  split
  · exact (htell _).bind fun _ => pure _
  · next e visit h => exact (htell visit).bind fun _ => throw (hfile _ e visit h)

theorem offer (kind : LinkKind) (options : Options) (source target : Path) :
    PastSettings ((kind.link options).offer source target) := by
  cases kind with
  | page =>
      show PastSettings (Page.offer options source target)
      rw [Page.offer]
      split
      · exact pure _
      · exact (render source options).bind fun content => (writeText _ content).bind fun _ => pure _
  | stylesheet =>
      show PastSettings (Stylesheet.offer source target)
      rw [Stylesheet.offer]
      split
      · exact pure _
      · split
        · exact pure _
        · exact (bundle source).bind fun content => (writeText target content).bind fun _ => pure _

/-! Chains and walks. -/

section

variable {links : List (Link World Failure)} {announce : String → Waiting → Action Unit}
  (h : ∀ l ∈ links, ∀ source target, PastSettings (l.offer source target))

include h

theorem offerFrom (p : Waiting) (i : Nat) : PastSettings (Chain.offerFrom p i links) := by
  induction links generalizing i with
  | nil => exact pure _
  | cons l links ih =>
      have hrest := ih (fun k hk => h k (List.mem_cons_of_mem l hk)) (i + 1)
      rw [Chain.offerFrom]
      split
      · exact hrest
      · refine (h l List.mem_cons_self p.source p.target).bind fun outcome => ?_
        split
        · exact hrest
        · exact pure _

variable (ha : ∀ name p, PastSettings (announce name p))

include ha

theorem process (p : Waiting) : PastSettings (Chain.process links announce p) := by
  refine (offerFrom h p 0).bind fun taken => ?_
  split
  · exact pure _
  · exact (ha _ _).bind fun _ => pure _

/-- The induction is on the files that may still be taken up. -/
theorem drain (n : Nat) (queue : List Waiting) (applied : Bool) :
    PastSettings (Chain.drain links announce n queue applied) := by
  induction n generalizing queue applied with
  | zero => cases queue <;> exact pure _
  | succ n ih =>
      cases queue with
      | nil => exact pure _
      | cons p queue => exact (process h ha p).bind fun _ => ih _ _

end

theorem emit (options : Options) (source target : Path) : PastSettings (Walk.emit options source target) := by
  have hchain : PastSettings (Walk.runChain options source target) := by
    refine bind (drain ?links (fun _ _ => progress _ _) _ _ _) fun applied => ?_
    case links =>
      intro l hl
      obtain ⟨kind, -, rfl⟩ := List.mem_map.1 hl
      exact offer kind options
    split
    · exact pure _
    · exact throw rfl
  refine hchain.bind fun applied => ?_
  split
  · exact pure _
  · refine (check _).bind fun there => ?_
    split
    · exact debug _ _
    · exact copy source target

/-- The induction is on how deeply directories may still be nested; loops and directories descend in the same way. -/
theorem walk (limits : Walk.Limits) (n : Nat) (options : Options) (dir dest : Path) :
    PastSettings (Walk.render limits n options dir dest) := by
  induction n generalizing options dir dest with
  | zero => exact throw rfl
  | succ n ih =>
      refine (progress _ _).bind fun _ => (entriesOf dir).bind fun entries => forM fun entry _ => ?_
      rw [Walk.visit]
      split
      · exact debug _ _
      · dsimp only
        split
        · exact debug _ _
        · refine (expand entry.name options.scope).bind fun expansions => bind ?tell fun _ => forM fun e _ => ?enter
          case tell =>
            rw [Walk.tellPruned.eq_def]
            split
            · exact debug _ _
            · exact pure _
          case enter =>
            rw [Walk.enter]
            split
            · exact ih _ _ _
            · exact ih _ _ _
            · exact throw rfl
            · exact emit _ _ _

/-! The two passes over the assets. -/

theorem stampFile (root : Path) (entry : Entry) : PastSettings (Asset.stampFile root entry) := by
  refine (readBytes entry.path).bind fun bytes => ?_
  split
  · exact (debug _ _).bind fun _ => pure _
  · exact (change _ fun _ => rfl).bind fun _ => (debug _ _).bind fun _ => pure _

theorem stampBelow (root : Path) (n : Nat) (dir : Path) : PastSettings (Asset.stampBelow root n dir) := by
  induction n generalizing dir with
  | zero => exact throw rfl
  | succ n ih =>
      exact (entriesOf dir).bind fun entries => (mapM fun e _ => ih e.path).bind fun below =>
        (mapM fun e _ => stampFile root e).bind fun renamed => pure _

theorem textCandidates (root : Path) : PastSettings (Asset.textCandidates root) := by
  refine (look _ fun _ => rfl).bind fun place => get.bind fun w => ?_
  split
  · exact throw rfl
  · exact pure _
  · exact pure _
  · exact (look _ fun _ => rfl).bind fun _ => pure _

theorem redirectFile (renames : Asset.Renames) (path : Path) : PastSettings (Asset.redirectFile renames path) := by
  refine (readBytes path).bind fun bytes => ?_
  split
  · exact pure _
  · exact (debug _ _).bind fun _ => writeBytes path _

theorem runPasses (root : Path) : PastSettings (Asset.runPasses root) := by
  have hstamp : PastSettings (Asset.stampTree root) :=
    get.bind fun w => (stampBelow root _ root).bind fun renames => pure _
  refine hstamp.bind fun renames => bind ?_ fun _ => pure _
  rw [Asset.redirectTree]
  split
  · exact pure _
  · exact (textCandidates root).bind fun paths => forM fun path _ => redirectFile renames path

/-! What a build does once its options are checked. -/

theorem produce (limits : Walk.Limits) (options : Options) : PastSettings (Build.produce limits options) := by
  refine (walk limits _ options _ _).bind fun _ => ?_
  split
  · exact runPasses _
  · exact pure _

/-- A failed build fails for what it failed for, whether or not what it left can be removed. -/
theorem buildClean (limits : Walk.Limits) (options : Options) (output staging : Path) :
    PastSettings (Build.buildClean limits options output staging) := by
  refine bind ?_ fun hashed => (debug _ _).bind fun _ => bind ?publish fun _ => pure _
  case publish => exact (clear output).bind fun _ => change _ fun _ => rfl
  intro w e w' h
  cases hp : Build.produce limits options w with
  | ok hashed w₁ => exact nomatch (Build.tryCatch_ok hp).symm.trans h
  | error e₁ w₁ =>
      obtain ⟨w₂, hclean, -⟩ := Build.cleanUp_ok staging w₁
      have hthrown := (Build.tryCatch_error hp).symm.trans h
      rw [bind_ok hclean] at hthrown
      cases hthrown
      exact produce limits options w _ w₁ hp

theorem prepare (plan : Build.Plan) (clean : Bool) : PastSettings (Build.prepare plan clean) := by
  rw [Build.prepare]
  split
  · exact (clear _).bind fun _ => (makeDirectories _).bind fun _ => tell _
  · exact (makeDirectories _).bind fun _ => tell _

theorem carryOut (plan : Build.Plan) (options : Options) : PastSettings (Build.carryOut plan options) := by
  rw [Build.carryOut]
  split
  · exact buildClean _ _ _ _
  · exact produce _ _

end PastSettings

namespace Build

open SiteTree.Action

/-- A build that fails for its settings or its patterns fails while they are checked, and leaves all files as they
were. From where the first file may be touched on, no build fails for them: not even one that goes by a plan that no check has made. -/
theorem build_settings_untouched (options : Options) :
    (∀ w e w', build options w = .error e w' → e.isSettings = true →
      validate options w = .error e w' ∧ w'.files = w.files) ∧
    ∀ plan : Plan, PastSettings (do prepare plan options.clean; carryOut plan options) := by
  have hpast : ∀ plan : Plan, PastSettings (do prepare plan options.clean; carryOut plan options) := fun plan =>
    (PastSettings.prepare plan _).bind fun _ => PastSettings.carryOut plan options
  refine ⟨fun w e w' h he => ?_, hpast⟩
  cases hv : validate options w with
  | error e₁ w₁ =>
      have hfiles := validate_keeps (J := (· = w.files)) options w rfl
      rw [after_error hv] at hfiles
      cases (bind_error hv).symm.trans h
      exact ⟨rfl, hfiles⟩
  | ok plan w₁ =>
      have hrest : PastSettings (do
          prepare plan options.clean
          let hashed ← carryOut plan options
          tell (finished plan)
          return (⟨plan.output, hashed⟩ : Report)) :=
        (PastSettings.prepare plan _).bind fun _ => (PastSettings.carryOut plan options).bind fun _ =>
          (PastSettings.tell _).bind fun _ => PastSettings.pure _
      rw [hrest w₁ e w' ((build_of_plan hv).symm.trans h)] at he
      cases he

/-- An old output, and beside it what an earlier build has left. -/
def staleStaging : World :=
  ⟨⟨[(["src", "a.txt"], .file "new".toUTF8), (["src"], .directory), (["site", "a.txt"], .file "old".toUTF8),
    (["site"], .directory), ([".site.staging", "b.txt"], .file "left".toUTF8), ([".site.staging"], .directory)]⟩, [], []⟩

theorem staleStaging_untouched : ∃ e w', build { cleanBuild "src" "site" with ignore := ["a[b"] } staleStaging = .error e w' ∧
    e.isSettings = true ∧ w'.files = staleStaging.files := by
  have hfails : (failure? (build { cleanBuild "src" "site" with ignore := ["a[b"] }) staleStaging).any Failure.isSettings = true := by
    decide +kernel
  cases h : build { cleanBuild "src" "site" with ignore := ["a[b"] } staleStaging with
  | ok report w' => simp [failure?_ok h] at hfails
  | error e w' =>
      have he : e.isSettings = true := by simpa [failure?_error h] using hfails
      exact ⟨e, w', rfl, he, ((build_settings_untouched _).1 _ e w' h he).2⟩

end Build

end SiteTree
