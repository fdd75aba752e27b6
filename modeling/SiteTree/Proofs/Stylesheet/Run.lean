import Mathlib.Data.Finset.Card
import SiteTree.Proofs.Action
import SiteTree.Proofs.FileSystem.Sibling
import SiteTree.Proofs.Stylesheet.Rule

/-!
What a bundling does, call by call, told without a limit on how deeply imports may be nested: a file that was met
before gives nothing, any other is read and its imports are called for in the order in which they stand. Every
bundling comes to an end, since a file that is read is from then on one of those met before.
-/

namespace SiteTree.Stylesheet

open FileSystem

/-- What a bundle is made of: characters of the files, remote imports as they were written, and the newlines that
were added. A seam takes no room. It stands where an imported file begins, and where it ends, and tells whether
what comes next starts a line in its own file. -/
inductive Mark where
  | char (c : Char)
  | kept (rule : Rule)
  | newline
  | seam (fresh : Bool)

def Mark.chars : Mark → List Char
  | .char c => [c]
  | .kept rule => rule.text
  | .newline => ['\n']
  | .seam _ => []

def charsOf (marks : List Mark) : List Char := marks.flatMap Mark.chars

def closing (s : List Char) : List Mark := if s.isEmpty || s.getLast? = some '\n' then [] else [.newline]

/-- What stands in the place of an import. -/
def inlined (rule : Rule) (marks : List Mark) : List Mark :=
  .seam true :: (marks ++ closing (charsOf marks) ++ [.seam (endsLine rule.text)])

/-- The directory that the references of a file start from. -/
def baseOf (path : Path) : Path := path.parent?.getD ⟨"."⟩

/-- One call for a file: what reading it gave, if it was read at all, and what it gave to the bundle. -/
structure Call where
  path : Path
  canonical : Path
  reading : Option (Except Cause String)
  text : List Char

/-- What is still to be done: a file, or pieces of a file whose directory is the base. -/
inductive Job where
  | file (path : Path)
  | pieces (base : Path) (ps : List Piece)

def textOf : Except Failure (List Mark) → List Char
  | .ok marks => charsOf marks
  | .error _ => []

/-- A job that is done from beginning to end, with the calls on the way in the order in which they were made. The
first failure ends it. -/
inductive Runs (fs : FileSystem) (cwd : Location) :
    Job → Visit → List Call → Except Failure (List Mark) → Visit → Prop
  | missing {path v cause} (hc : fs.canonical cwd path = .error cause) :
      Runs fs cwd (.file path) v [] (.error (.read path cause)) v
  | again {path v c} (hc : fs.canonical cwd path = .ok c) (hseen : c ∈ v.seen) :
      Runs fs cwd (.file path) v [⟨path, c, none, []⟩] (.ok []) { v with repeats := path :: v.repeats }
  | unreadable {path v c cause} (hc : fs.canonical cwd path = .ok c) (hnew : c ∉ v.seen)
      (hread : fs.readText cwd path = .error cause) :
      Runs fs cwd (.file path) v [⟨path, c, some (.error cause), []⟩] (.error (.read path cause))
        { v with seen := c :: v.seen }
  | read {path v c content log result v'} (hc : fs.canonical cwd path = .ok c) (hnew : c ∉ v.seen)
      (hread : fs.readText cwd path = .ok content)
      (hrest : Runs fs cwd (.pieces (baseOf path) (pieces content.toList)) { v with seen := c :: v.seen } log result v') :
      Runs fs cwd (.file path) v (⟨path, c, some (.ok content), textOf result⟩ :: log) result v'
  | done {base v} : Runs fs cwd (.pieces base []) v [] (.ok []) v
  | char {base c ps v log result v'} (hrest : Runs fs cwd (.pieces base ps) v log result v') :
      Runs fs cwd (.pieces base (.char c :: ps)) v log (result.map (.char c :: ·)) v'
  | kept {base rule ps v log result v'} (hremote : isRemote rule.reference = true)
      (hrest : Runs fs cwd (.pieces base ps) v log result v') :
      Runs fs cwd (.pieces base (.rule rule :: ps)) v log (result.map (.kept rule :: ·)) v'
  | failed {base rule ps v log e v'} (hlocal : isRemote rule.reference = false)
      (hfile : Runs fs cwd (.file (base.join (Path.ofChars rule.reference))) v log (.error e) v') :
      Runs fs cwd (.pieces base (.rule rule :: ps)) v log (.error e) v'
  | inlined {base rule ps v log marks v' log' result v''} (hlocal : isRemote rule.reference = false)
      (hfile : Runs fs cwd (.file (base.join (Path.ofChars rule.reference))) v log (.ok marks) v')
      (hrest : Runs fs cwd (.pieces base ps) v' log' result v'') :
      Runs fs cwd (.pieces base (.rule rule :: ps)) v (log ++ log') (result.map (inlined rule marks ++ ·)) v''

variable {fs : FileSystem} {cwd : Location} {job : Job} {path base c : Path} {v v' v₁ v₂ : Visit}
  {log log' log₁ log₂ : List Call} {result result₁ result₂ : Except Failure (List Mark)} {ps : List Piece} {n : Nat}
  {content : String} {cause : Cause} {seen seen' : List Path} {marks marks' : List Mark}

@[simp] theorem charsOf_nil : charsOf [] = [] := rfl

@[simp] theorem charsOf_cons (m : Mark) (marks : List Mark) : charsOf (m :: marks) = m.chars ++ charsOf marks := rfl

@[simp] theorem charsOf_append (marks marks' : List Mark) : charsOf (marks ++ marks') = charsOf marks ++ charsOf marks' :=
  List.flatMap_append

theorem charsOf_inlined (rule : Rule) (marks : List Mark) : charsOf (inlined rule marks) = closed (charsOf marks) := by
  rw [inlined, closing, closed]
  split <;> simp [Mark.chars]

section

variable {f : List Mark → List Mark} {e : Failure}

theorem map_eq_ok : result.map f = .ok marks ↔ ∃ marks', result = .ok marks' ∧ f marks' = marks := by
  cases result <;> simp [Except.map]

theorem map_eq_error : result.map f = .error e ↔ result = .error e := by
  cases result <;> simp [Except.map]

end

theorem Runs.seen_suffix (h : Runs fs cwd job v log result v') : v.seen <:+ v'.seen := by
  induction h with
  | missing | again | done => exact List.suffix_rfl
  | unreadable => exact List.suffix_cons _ _
  | read _ _ _ _ ih => exact (List.suffix_cons _ _).trans ih
  | char _ ih | kept _ _ ih | failed _ _ ih => exact ih
  | inlined _ _ _ ihfile ihrest => exact ihfile.trans ihrest

theorem Runs.unique (h₁ : Runs fs cwd job v log₁ result₁ v₁) (h₂ : Runs fs cwd job v log₂ result₂ v₂) :
    log₁ = log₂ ∧ result₁ = result₂ ∧ v₁ = v₂ := by
  -- which of the ways it is, is told by what the path leads to, what was met and what is read
  induction h₁ generalizing log₂ result₂ v₂ with
  | missing hc =>
      cases h₂ with
      | missing hc' =>
          cases hc.symm.trans hc'
          exact ⟨rfl, rfl, rfl⟩
      | again hc' | unreadable hc' | read hc' => cases hc.symm.trans hc'
  | again hc hseen =>
      cases h₂ with
      | again hc' =>
          cases hc.symm.trans hc'
          exact ⟨rfl, rfl, rfl⟩
      | missing hc' => cases hc.symm.trans hc'
      | unreadable hc' hnew | read hc' hnew =>
          cases hc.symm.trans hc'
          exact absurd hseen hnew
  | unreadable hc hnew hread =>
      cases h₂ with
      | missing hc' => cases hc.symm.trans hc'
      | again hc' hseen =>
          cases hc.symm.trans hc'
          exact absurd hseen hnew
      | unreadable hc' _ hread' =>
          cases hc.symm.trans hc'
          cases hread.symm.trans hread'
          exact ⟨rfl, rfl, rfl⟩
      | read _ _ hread' => cases hread.symm.trans hread'
  | read hc hnew hread _ ih =>
      cases h₂ with
      | missing hc' => cases hc.symm.trans hc'
      | again hc' hseen =>
          cases hc.symm.trans hc'
          exact absurd hseen hnew
      | unreadable _ _ hread' => cases hread.symm.trans hread'
      | read hc' _ hread' hrest =>
          cases hc.symm.trans hc'
          cases hread.symm.trans hread'
          obtain ⟨rfl, rfl, rfl⟩ := ih hrest
          exact ⟨rfl, rfl, rfl⟩
  | done =>
      cases h₂
      exact ⟨rfl, rfl, rfl⟩
  | char _ ih =>
      cases h₂ with
      | char hrest =>
          obtain ⟨rfl, rfl, rfl⟩ := ih hrest
          exact ⟨rfl, rfl, rfl⟩
  | kept hremote _ ih =>
      cases h₂ with
      | kept _ hrest =>
          obtain ⟨rfl, rfl, rfl⟩ := ih hrest
          exact ⟨rfl, rfl, rfl⟩
      | failed hlocal | inlined hlocal => cases hremote.symm.trans hlocal
  | failed hlocal _ ih =>
      cases h₂ with
      | kept hremote => cases hremote.symm.trans hlocal
      | failed _ hfile =>
          obtain ⟨rfl, he, rfl⟩ := ih hfile
          cases he
          exact ⟨rfl, rfl, rfl⟩
      | inlined _ hfile => cases (ih hfile).2.1
  | inlined hlocal _ _ ihfile ihrest =>
      cases h₂ with
      | kept hremote => cases hremote.symm.trans hlocal
      | failed _ hfile => cases (ihfile hfile).2.1
      | inlined _ hfile hrest =>
          obtain ⟨rfl, hmarks, rfl⟩ := ihfile hfile
          cases hmarks
          obtain ⟨rfl, rfl, rfl⟩ := ihrest hrest
          exact ⟨rfl, rfl, rfl⟩

/-- All the places where a file can be. -/
def places (fs : FileSystem) : Finset Path := (pathOf [] :: fs.entries.map fun e => pathOf e.1).toFinset

/-- How many places have not been met. -/
def unseen (fs : FileSystem) (seen : List Path) : Nat := ((places fs).filter (· ∉ seen)).card

theorem mem_places (hc : fs.canonical cwd path = .ok c) : c ∈ places fs := by
  obtain ⟨loc, node, hfound, rfl⟩ := canonical_eq_ok.1 hc
  rw [places, List.mem_toFinset]
  by_cases hloc : loc = []
  · rw [hloc]
    exact List.mem_cons_self
  · obtain ⟨e, he, hplace⟩ := mem_of_at?_isSome hloc (by rw [at?_of_found hfound]; rfl)
    exact List.mem_cons_of_mem _ (List.mem_map.2 ⟨e, he, by rw [hplace]⟩)

theorem unseen_le (h : seen ⊆ seen') : unseen fs seen' ≤ unseen fs seen := by
  refine Finset.card_le_card fun c hc => ?_
  rw [Finset.mem_filter] at hc ⊢
  exact ⟨hc.1, fun hmem => hc.2 (h hmem)⟩

theorem unseen_lt (hc : fs.canonical cwd path = .ok c) (hnew : c ∉ seen) : unseen fs (c :: seen) < unseen fs seen := by
  refine Finset.card_lt_card (Finset.ssubset_iff_of_subset (fun d hd => ?_) |>.2 ⟨c, ?_, ?_⟩)
  · rw [Finset.mem_filter] at hd ⊢
    exact ⟨hd.1, fun hmem => hd.2 (List.mem_cons_of_mem c hmem)⟩
  · exact Finset.mem_filter.2 ⟨mem_places hc, hnew⟩
  · exact fun hmem => (Finset.mem_filter.1 hmem).2 List.mem_cons_self

theorem unseen_nil_le (fs : FileSystem) : unseen fs [] ≤ fs.entries.length + 1 :=
  (Finset.card_filter_le _ _).trans ((List.toFinset_card_le _).trans (by simp))

/-- What the limited definition gives where this is the result. -/
def outcome : Except Failure (List Mark) → Visit → EStateM.Result Failure Visit (List Char)
  | .ok marks, v => .ok (charsOf marks) v
  | .error e, v => .error e v

theorem inline_missing (hc : fs.canonical cwd path = .error cause) (n : Nat) (v : Visit) :
    inline fs cwd (n + 1) path v = .error (.read path cause) v := by
  rw [inline, hc]
  rfl

theorem inline_again (hc : fs.canonical cwd path = .ok c) (hseen : c ∈ v.seen) (n : Nat) :
    inline fs cwd (n + 1) path v = .ok [] { v with repeats := path :: v.repeats } := by
  have hcontains : v.seen.contains c = true := by simpa using hseen
  show (inline fs cwd (n + 1) path).run v = _
  simp only [inline, hc, fetch, EStateM.run_bind, EStateM.run_pure, EStateM.run_get, EStateM.run_set, hcontains, if_true]

theorem inline_new (hc : fs.canonical cwd path = .ok c) (hnew : c ∉ v.seen) (n : Nat) :
    inline fs cwd (n + 1) path v = (fetch path (fs.readText cwd path) >>= fun content =>
      inlinePieces (inline fs cwd n) (baseOf path) (pieces content.toList)) { v with seen := c :: v.seen } := by
  have hcontains : v.seen.contains c = false := by simpa using hnew
  show (inline fs cwd (n + 1) path).run v = _
  simp only [inline, hc, fetch, EStateM.run_bind, EStateM.run_pure, EStateM.run_get, hcontains]
  rfl

section

variable {f : Path → Bundling (List Char)} {rule : Rule}

theorem inlinePieces_char (hrest : inlinePieces f base ps v = outcome result v') (c : Char) :
    inlinePieces f base (.char c :: ps) v = outcome (result.map (.char c :: ·)) v' := by
  rw [inlinePieces]
  simp only [bind, EStateM.bind, hrest]
  cases result <;> rfl

theorem inlinePieces_kept (hremote : isRemote rule.reference = true)
    (hrest : inlinePieces f base ps v = outcome result v') :
    inlinePieces f base (.rule rule :: ps) v = outcome (result.map (.kept rule :: ·)) v' := by
  rw [inlinePieces, if_pos hremote]
  simp only [bind, EStateM.bind, pure, EStateM.pure, hrest]
  cases result <;> rfl

theorem inlinePieces_failed {e : Failure} (hlocal : isRemote rule.reference = false)
    (hfile : f (base.join (Path.ofChars rule.reference)) v = .error e v') :
    inlinePieces f base (.rule rule :: ps) v = .error e v' := by
  rw [inlinePieces, if_neg (by rw [hlocal]; exact Bool.false_ne_true)]
  simp only [bind, EStateM.bind, hfile]

theorem inlinePieces_inlined (hlocal : isRemote rule.reference = false)
    (hfile : f (base.join (Path.ofChars rule.reference)) v = .ok (charsOf marks) v₁)
    (hrest : inlinePieces f base ps v₁ = outcome result v') :
    inlinePieces f base (.rule rule :: ps) v = outcome (result.map (inlined rule marks ++ ·)) v' := by
  rw [inlinePieces, if_neg (by rw [hlocal]; exact Bool.false_ne_true)]
  simp only [bind, EStateM.bind, hfile, pure, EStateM.pure, hrest]
  cases result with
  | error e => rfl
  | ok marks' =>
      rw [Except.map, outcome, outcome, charsOf_append, charsOf_inlined]

theorem inlinePieces_runs (hinline : ∀ path v, unseen fs v.seen < n → ∃ log result v',
      Runs fs cwd (.file path) v log result v' ∧ inline fs cwd n path v = outcome result v')
    (base : Path) (ps : List Piece) (v : Visit) (hlt : unseen fs v.seen < n) :
    ∃ log result v', Runs fs cwd (.pieces base ps) v log result v' ∧
      inlinePieces (inline fs cwd n) base ps v = outcome result v' := by
  induction ps generalizing v with
  | nil => exact ⟨[], .ok [], v, .done, rfl⟩
  | cons p ps ih =>
      cases p with
      | char c =>
          obtain ⟨log, result, v', hruns, hrest⟩ := ih v hlt
          exact ⟨log, _, v', .char hruns, inlinePieces_char hrest c⟩
      | rule rule =>
          cases hremote : isRemote rule.reference with
          | true =>
              obtain ⟨log, result, v', hruns, hrest⟩ := ih v hlt
              exact ⟨log, _, v', .kept hremote hruns, inlinePieces_kept hremote hrest⟩
          | false =>
              obtain ⟨log, result, v₁, hfile, heq⟩ := hinline (base.join (Path.ofChars rule.reference)) v hlt
              cases result with
              | error e => exact ⟨log, _, v₁, .failed hremote hfile, inlinePieces_failed hremote heq⟩
              | ok marks =>
                  obtain ⟨log', result, v', hruns, hrest⟩ := ih v₁ ((unseen_le hfile.seen_suffix.subset).trans_lt hlt)
                  exact ⟨log ++ log', _, v', .inlined hremote hfile hruns, inlinePieces_inlined hremote heq hrest⟩

end

/-- A limit above the number of places that have not been met is never reached: by each file that is read one place
less is left. -/
theorem inline_runs (n : Nat) (path : Path) (v : Visit) (hlt : unseen fs v.seen < n) :
    ∃ log result v', Runs fs cwd (.file path) v log result v' ∧ inline fs cwd n path v = outcome result v' := by
  induction n generalizing path v with
  | zero => exact absurd hlt (Nat.not_lt_zero _)
  | succ n ih =>
      cases hc : fs.canonical cwd path with
      | error cause => exact ⟨[], _, v, .missing hc, inline_missing hc n v⟩
      | ok c =>
          by_cases hseen : c ∈ v.seen
          · exact ⟨_, _, _, .again hc hseen, inline_again hc hseen n⟩
          · rw [inline_new hc hseen]
            cases hread : fs.readText cwd path with
            | error cause => exact ⟨_, _, _, .unreadable hc hseen hread, rfl⟩
            | ok content =>
                have hless : unseen fs (c :: v.seen) < n := (unseen_lt hc hseen).trans_le (Nat.le_of_lt_succ hlt)
                obtain ⟨log, result, v', hruns, hrest⟩ :=
                  inlinePieces_runs ih (baseOf path) (pieces content.toList) { v with seen := c :: v.seen } hless
                exact ⟨_, result, v', .read hc hseen hread hruns, hrest⟩

/-- The world after a bundling has told which imports it left out. -/
def told (visit : Visit) (w : World) : World :=
  { w with events := (visit.repeats.map fun path =>
      Event.record .debug .stylesheet ("Skipping repeated import of " ++ path.text)) ++ w.events }

def answer : Except Failure (List Mark) → World → EStateM.Result Failure World String
  | .ok marks, w => .ok (String.ofList (charsOf marks)) w
  | .error e, w => .error e w

theorem forM_debug (topic : Topic) (f : Path → String) (paths : List Path) (w : World) :
    (paths.forM fun path => Action.debug topic (f path)) w =
      .ok () { w with events := (paths.map fun path => Event.record .debug topic (f path)).reverse ++ w.events } := by
  induction paths generalizing w with
  | nil => rfl
  | cons path paths ih =>
      show (Action.debug topic (f path) >>= fun _ => paths.forM fun path => Action.debug topic (f path)) w = _
      have hdebug : Action.debug topic (f path) w = .ok () { w with events := .record .debug topic (f path) :: w.events } :=
        rfl
      simp only [bind, EStateM.bind, hdebug, ih]
      simp

theorem tellRepeats_eq (visit : Visit) (w : World) : tellRepeats visit w = .ok () (told visit w) := by
  rw [tellRepeats, forM_debug, List.map_reverse, List.reverse_reverse]
  rfl

/-- The limit of the definition that runs is high enough. -/
theorem bundle_runs {w : World} {entry : Path} {visit : Visit}
    (h : Runs w.files w.cwd (.file entry) ⟨[], []⟩ log result visit) : bundle entry w = answer result (told visit w) := by
  obtain ⟨log', result', visit', hruns, heq⟩ := inline_runs (w.files.entries.length + 2) entry ⟨[], []⟩
    ((unseen_nil_le w.files).trans_lt (Nat.lt_succ_self _))
  obtain ⟨-, rfl, rfl⟩ := h.unique hruns
  have htold : ∀ {f : Unit → Action String}, (tellRepeats visit >>= f) w = f () (told visit w) := by
    intro f
    simp only [bind, EStateM.bind, tellRepeats_eq]
  rw [bundle, Action.get_bind, bundleFile, EStateM.run_bind]
  cases result with
  | ok marks =>
      rw [show (inline w.files w.cwd (w.files.entries.length + 2) entry).run ⟨[], []⟩ = .ok (charsOf marks) visit from heq]
      exact htold
  | error e =>
      rw [show (inline w.files w.cwd (w.files.entries.length + 2) entry).run ⟨[], []⟩ = .error e visit from heq]
      exact htold

theorem exists_bundle_runs (w : World) (entry : Path) : ∃ log result visit,
    Runs w.files w.cwd (.file entry) ⟨[], []⟩ log result visit ∧ bundle entry w = answer result (told visit w) := by
  obtain ⟨log, result, visit, hruns, -⟩ := inline_runs (w.files.entries.length + 2) entry ⟨[], []⟩
    ((unseen_nil_le w.files).trans_lt (Nat.lt_succ_self _))
  exact ⟨log, result, visit, hruns, bundle_runs hruns⟩

theorem bundle_eq_ok {w w' : World} {entry : Path} {text : String} (h : bundle entry w = .ok text w') :
    ∃ log marks visit, Runs w.files w.cwd (.file entry) ⟨[], []⟩ log (.ok marks) visit ∧ text.toList = charsOf marks := by
  obtain ⟨log, result, visit, hruns, hbundle⟩ := exists_bundle_runs w entry
  rw [hbundle] at h
  cases result with
  | error e => cases h
  | ok marks =>
      cases h
      exact ⟨log, marks, visit, hruns, String.toList_ofList⟩

theorem Runs.reading_eq (h : Runs fs cwd job v log result v') {call : Call} (hcall : call ∈ log)
    {reading : Except Cause String} (hreading : call.reading = some reading) : fs.readText cwd call.path = reading := by
  induction h with
  | missing | done => cases hcall
  | again =>
      obtain rfl := List.mem_singleton.1 hcall
      cases hreading
  | unreadable _ _ hread =>
      obtain rfl := List.mem_singleton.1 hcall
      cases hreading
      exact hread
  | read _ _ hread _ ih =>
      rcases List.mem_cons.1 hcall with rfl | hcall
      · cases hreading
        exact hread
      · exact ih hcall
  | char _ ih | kept _ _ ih | failed _ _ ih => exact ih hcall
  | inlined _ _ _ ihfile ihrest => exact (List.mem_append.1 hcall).elim ihfile ihrest

theorem Runs.mem_seen (h : Runs fs cwd job v log result v') :
    c ∈ v'.seen ↔ c ∈ v.seen ∨ ∃ call ∈ log, call.canonical = c := by
  induction h with
  | missing | done => simp
  | again _ hseen => simpa using fun h => h ▸ hseen
  | unreadable => simp [or_comm, eq_comm]
  | read _ _ _ _ ih =>
      rw [ih]
      simp only [List.mem_cons, exists_eq_or_imp]
      tauto
  | char _ ih | kept _ _ ih | failed _ _ ih => exact ih
  | inlined _ _ _ ihfile ihrest =>
      rw [ihrest, ihfile]
      simp only [List.mem_append, or_and_right, exists_or, or_assoc]

/-- A call reads its file just if that was not met before the job and not by an earlier call, and otherwise gives
nothing. -/
theorem Runs.reads_new (h : Runs fs cwd job v log result v') {before after : List Call} {call : Call}
    (hlog : log = before ++ call :: after) :
    (call.reading.isSome ↔ call.canonical ∉ v.seen ∧ ∀ earlier ∈ before, earlier.canonical ≠ call.canonical) ∧
      (call.reading = none → call.text = []) := by
  induction h generalizing before call after with
  | missing | done => simp at hlog
  | again _ hseen =>
      cases before with
      | nil =>
          obtain ⟨rfl, -⟩ := List.cons.inj hlog
          simpa using hseen
      | cons y before => simp at hlog
  | unreadable _ hnew =>
      cases before with
      | nil =>
          obtain ⟨rfl, -⟩ := List.cons.inj hlog
          simpa using hnew
      | cons y before => simp at hlog
  | read _ hnew _ _ ih =>
      cases before with
      | nil =>
          obtain ⟨rfl, -⟩ := List.cons.inj hlog
          simpa using hnew
      | cons y before =>
          obtain ⟨rfl, hrest⟩ := List.cons.inj hlog
          obtain ⟨hread, hnone⟩ := ih hrest
          refine ⟨hread.trans ?_, hnone⟩
          simp only [List.mem_cons, not_or, forall_eq_or_imp]
          tauto
  | char _ ih | kept _ _ ih | failed _ _ ih => exact ih hlog
  | @inlined base rule ps v log marks v' log' result v'' _ hfile _ ihfile ihrest =>
      -- a call for a piece that comes later has all the calls for the import before it
      have hlater : ∀ l, before = log ++ l → log' = l ++ call :: after →
          (call.reading.isSome ↔ call.canonical ∉ v.seen ∧ ∀ earlier ∈ before, earlier.canonical ≠ call.canonical) ∧
            (call.reading = none → call.text = []) := by
        rintro l rfl hl
        obtain ⟨hread, hnone⟩ := ihrest hl
        refine ⟨hread.trans ?_, hnone⟩
        simp only [hfile.mem_seen, List.mem_append]
        grind
      rcases List.append_eq_append_iff.1 hlog with ⟨l, hbefore, hl⟩ | ⟨l, hl, hafter⟩
      · exact hlater l hbefore hl
      · cases l with
        | nil => exact hlater [] (by simpa using hl.symm) (by simpa using hafter.symm)
        | cons x l =>
            obtain ⟨rfl, -⟩ := List.cons.inj hafter
            exact ihfile hl

theorem Runs.readings_le (h : Runs fs cwd job v log result v') :
    (log.filter fun call => call.reading.isSome).length + unseen fs v'.seen ≤ unseen fs v.seen := by
  induction h with
  | missing | again | done => simp
  | unreadable hc hnew =>
      have hlt := unseen_lt hc hnew
      rw [List.filter_cons_of_pos rfl, List.filter_nil, List.length_singleton]
      dsimp only
      omega
  | read hc hnew _ _ ih =>
      have hlt := unseen_lt hc hnew
      rw [List.filter_cons_of_pos rfl, List.length_cons]
      dsimp only at ih
      omega
  | char _ ih | kept _ _ ih | failed _ _ ih => exact ih
  | inlined _ _ _ ihfile ihrest =>
      rw [List.filter_append, List.length_append]
      omega

/-- Every bundling comes to an end, in one way only, and the limit on how deeply imports may be nested never shows. A
call reads its file just if no earlier call was for the same file, by whatever path, and all other calls give nothing;
so no more files are read than there are. -/
theorem bundle_reads_once (w : World) (entry : Path) : ∃ log result visit,
    Runs w.files w.cwd (.file entry) ⟨[], []⟩ log result visit ∧
    (∀ log' result' visit', Runs w.files w.cwd (.file entry) ⟨[], []⟩ log' result' visit' →
      log' = log ∧ result' = result ∧ visit' = visit) ∧
    bundle entry w = answer result (told visit w) ∧
    (∀ n, w.files.entries.length + 2 ≤ n → inline w.files w.cwd n entry ⟨[], []⟩ = outcome result visit) ∧
    (∀ before call after, log = before ++ call :: after →
      (call.reading.isSome ↔ ∀ earlier ∈ before, earlier.canonical ≠ call.canonical) ∧
        (call.reading = none → call.text = [])) ∧
    (log.filter fun call => call.reading.isSome).length ≤ w.files.entries.length + 1 := by
  have hplaces := unseen_nil_le w.files
  have hruns : ∀ n, w.files.entries.length + 2 ≤ n → ∃ log result visit,
      Runs w.files w.cwd (.file entry) ⟨[], []⟩ log result visit ∧
        inline w.files w.cwd n entry ⟨[], []⟩ = outcome result visit := by
    intro n hn
    exact inline_runs n entry ⟨[], []⟩ (hplaces.trans_lt hn)
  obtain ⟨log, result, visit, h, -⟩ := hruns _ le_rfl
  refine ⟨log, result, visit, h, fun _ _ _ h' => h'.unique h, bundle_runs h, fun n hn => ?_,
    fun before call after hlog => ?_, ?_⟩
  · obtain ⟨log', result', visit', h', heq⟩ := hruns n hn
    obtain ⟨-, rfl, rfl⟩ := h.unique h'
    exact heq
  · simpa using h.reads_new hlog
  · exact (Nat.le_add_right _ _).trans (h.readings_le.trans hplaces)

end SiteTree.Stylesheet
