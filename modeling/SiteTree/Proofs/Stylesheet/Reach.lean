import Mathlib.Logic.Relation
import SiteTree.Proofs.Stylesheet.Run

/-!
What a bundling reads. It comes to every file that the entry leads to, or stops at the first that cannot be read,
though it does not follow a file again that it has met: whatever can be reached from there can be reached in the same
order from where the file was met first, by a way on which no file comes twice.
-/

namespace SiteTree.Stylesheet

open FileSystem

/-- The references of the local import rules among pieces, in the order in which they stand. -/
def localReferences (ps : List Piece) : List (List Char) :=
  ps.filterMap fun
    | .char _ => none
    | .rule rule => if isRemote rule.reference then none else some rule.reference

def targets (base : Path) (ps : List Piece) : List Path :=
  (localReferences ps).map fun reference => base.join (Path.ofChars reference)

def successors (fs : FileSystem) (cwd : Location) (path : Path) : List Path :=
  match fs.readText cwd path with
  | .ok content => targets (baseOf path) (pieces content.toList)
  | .error _ => []

def Imports (fs : FileSystem) (cwd : Location) (p q : Path) : Prop := q ∈ successors fs cwd p

/-- There is a file at the path, and it holds a text. -/
def Readable (fs : FileSystem) (cwd : Location) (path : Path) : Prop :=
  ∃ loc bytes text, fs.found cwd path = .ok (loc, .file bytes) ∧ String.fromUTF8? bytes = some text

/-- A way along imports to a path that cannot be read, told by the number of the import that is followed in each file.
It comes to no file twice, by whatever paths, and to none of those that are barred. -/
inductive Strays (fs : FileSystem) (cwd : Location) : List Path → Path → List Nat → Path → Prop
  | here {barred path} (h : ¬ Readable fs cwd path) : Strays fs cwd barred path [] path
  | step {barred path c i next is q} (hc : fs.canonical cwd path = .ok c) (hnew : c ∉ barred)
      (hi : (successors fs cwd path)[i]? = some next) (h : Strays fs cwd (c :: barred) next is q) :
      Strays fs cwd barred path (i :: is) q

/-- What cannot be read and is come to first if the imports of each file are followed before those that stand behind
it. -/
def FirstUnreadable (fs : FileSystem) (cwd : Location) (entry : Path) (is : List Nat) (q : Path) : Prop :=
  Strays fs cwd [] entry is q ∧ ∀ js q', Strays fs cwd [] entry js q' → ¬ js < is

def Job.targets : Job → List Path
  | .file path => [path]
  | .pieces base ps => Stylesheet.targets base ps

/-- All files that were met can be read, and those that are done import only files that were met. -/
def Explored (fs : FileSystem) (cwd : Location) (seen pending : List Path) : Prop :=
  ∀ c ∈ seen, ∃ p, fs.canonical cwd p = .ok c ∧ Readable fs cwd p ∧
    (c ∉ pending → ∀ q ∈ successors fs cwd p, ∃ d ∈ seen, fs.canonical cwd q = .ok d)

variable {fs : FileSystem} {cwd : Location} {job : Job} {path entry base p p' q t : Path} {c : Path} {v v' : Visit}
  {log : List Call} {result : Except Failure (List Mark)} {ps : List Piece} {barred barred' pending seen : List Path}
  {is js : List Nat} {i : Nat} {marks : List Mark} {e : Failure} {content : String} {cause : Cause}

theorem readText_eq_ok : fs.readText cwd path = .ok content ↔
    ∃ loc bytes, fs.found cwd path = .ok (loc, .file bytes) ∧ String.fromUTF8? bytes = some content := by
  rw [readText, readFile]
  cases fs.found cwd path with
  | error cause => simp [bind, Except.bind]
  | ok x =>
      obtain ⟨loc, node⟩ := x
      cases node with
      | file bytes =>
          cases hbytes : String.fromUTF8? bytes <;> simp [bind, Except.bind, hbytes]
      | directory | link => simp [bind, Except.bind]

theorem readable_iff : Readable fs cwd path ↔ ∃ content, fs.readText cwd path = .ok content := by
  simp only [Readable, readText_eq_ok]
  grind

theorem readText_error (h : fs.canonical cwd path = .error cause) : fs.readText cwd path = .error cause := by
  rw [canonical] at h
  rw [readText, readFile]
  cases hfound : fs.found cwd path with
  | error cause' =>
      rw [hfound] at h
      cases h
      rfl
  | ok x =>
      rw [hfound] at h
      cases h

theorem not_readable (h : fs.readText cwd path = .error cause) : ¬ Readable fs cwd path := by
  rw [readable_iff]
  rintro ⟨content, hread⟩
  cases h.symm.trans hread

theorem successors_eq (h : fs.readText cwd path = .ok content) :
    successors fs cwd path = targets (baseOf path) (pieces content.toList) := by
  rw [successors, h]

theorem readable_of_successor (h : q ∈ successors fs cwd path) : Readable fs cwd path := by
  rw [readable_iff]
  rw [successors] at h
  split at h
  · next content hread => exact ⟨content, hread⟩
  · cases h

theorem Strays.mono (h : Strays fs cwd barred' path is q) (hsub : barred ⊆ barred') : Strays fs cwd barred path is q := by
  induction h generalizing barred with
  | here h => exact .here h
  | step hc hnew hi _ ih => exact .step hc (fun hmem => hnew (hsub hmem)) hi (ih (List.cons_subset_cons _ hsub))

theorem Strays.reaches (h : Strays fs cwd barred path is q) :
    Relation.ReflTransGen (Imports fs cwd) path q ∧ ¬ Readable fs cwd q := by
  induction h with
  | here h => exact ⟨.refl, h⟩
  | step _ _ hi _ ih => exact ⟨.head (List.mem_of_getElem? hi) ih.1, ih.2⟩

theorem localReferences_kept {rule : Rule} (hremote : isRemote rule.reference = true) :
    localReferences (.rule rule :: ps) = localReferences ps := by
  simp [localReferences, hremote]

theorem localReferences_inlined {rule : Rule} (hlocal : isRemote rule.reference = false) :
    localReferences (.rule rule :: ps) = rule.reference :: localReferences ps := by
  simp [localReferences, hlocal]

theorem targets_kept {rule : Rule} (hremote : isRemote rule.reference = true) :
    targets base (.rule rule :: ps) = targets base ps := by
  rw [targets, localReferences_kept hremote, targets]

theorem targets_inlined {rule : Rule} (hlocal : isRemote rule.reference = false) :
    targets base (.rule rule :: ps) = base.join (Path.ofChars rule.reference) :: targets base ps := by
  rw [targets, localReferences_inlined hlocal, targets, List.map_cons]

theorem mem_localReferences {reference : List Char} :
    reference ∈ localReferences ps ↔
      ∃ rule, .rule rule ∈ ps ∧ isRemote rule.reference = false ∧ rule.reference = reference := by
  rw [localReferences, List.mem_filterMap]
  constructor
  · rintro ⟨p | rule, hp, h⟩
    · cases h
    · dsimp only at h
      split at h
      · cases h
      · next hlocal => exact ⟨rule, hp, by simpa using hlocal, Option.some.inj h⟩
  · rintro ⟨rule, hp, hlocal, rfl⟩
    exact ⟨.rule rule, hp, by simp [hlocal]⟩

theorem localReference_ne_nil {reference s : List Char} (h : reference ∈ localReferences (pieces s)) : reference ≠ [] := by
  obtain ⟨rule, hmem, -, rfl⟩ := mem_localReferences.1 h
  obtain ⟨z, hread⟩ := (cuts_pieces s).read hmem
  exact reference_ne_nil hread

section

variable (hw : fs.WellFormed) (hfree : fs.LinkFree [])
include hw hfree

/-- What a file imports does not depend on how its path is spelled. -/
theorem successors_spelled (hc : fs.canonical cwd p = .ok c) (hc' : fs.canonical cwd p' = .ok c)
    (hi : (successors fs cwd p)[i]? = some q) :
    ∃ q', (successors fs cwd p')[i]? = some q' ∧ fs.canonical cwd q' = fs.canonical cwd q := by
  obtain ⟨content, hread⟩ := readable_iff.1 (readable_of_successor (List.mem_of_getElem? hi))
  obtain ⟨loc, bytes, hfound, htext⟩ := readText_eq_ok.1 hread
  have hfound' : fs.found cwd p' = .ok (loc, .file bytes) := (found_of_canonical hw hc hc').trans hfound
  rw [successors_eq hread, targets, List.getElem?_map, Option.map_eq_some_iff] at hi
  obtain ⟨reference, hreference, rfl⟩ := hi
  refine ⟨(baseOf p').join (Path.ofChars reference), ?_, ?_⟩
  · rw [successors_eq (readText_eq_ok.2 ⟨loc, bytes, hfound', htext⟩), targets, List.getElem?_map, hreference]
    rfl
  · have hne : (Path.ofChars reference).text ≠ "" := by
      have hnil := localReference_ne_nil (List.mem_of_getElem? hreference)
      intro he
      exact hnil (by simpa [Path.ofChars] using congrArg String.toList he)
    rw [canonical, canonical, found, found, baseOf, baseOf, resolve_beside hw hfree hfound hne,
      resolve_beside hw hfree hfound' hne]

/-- From a file that was met there is no way to what cannot be read but through one that is not done. -/
theorem Explored.not_strays (h : Explored fs cwd seen pending) (hc : fs.canonical cwd p = .ok c) (hseen : c ∈ seen) :
    ¬ Strays fs cwd pending p is q := by
  -- the induction is on the way: each file on it was met, and those that are not done are barred
  intro hs
  induction hs generalizing c with
  | @here pending p hp =>
      obtain ⟨p', hc', ⟨loc, bytes, text, hfound, htext⟩, -⟩ := h _ hseen
      exact hp ⟨loc, bytes, text, by rw [found_of_canonical hw hc' hc, hfound], htext⟩
  | @step pending p c' i next is q hc' hnew hi _ ih =>
      obtain rfl := Except.ok.inj (hc.symm.trans hc')
      obtain ⟨p', hp', -, hdone⟩ := h _ hseen
      obtain ⟨next', hi', hsame⟩ := successors_spelled hw hfree hc hp' hi
      obtain ⟨d, hd, hcd⟩ := hdone hnew next' (List.mem_of_getElem? hi')
      refine ih (fun c' hc' => ?_) (hsame ▸ hcd) hd
      obtain ⟨p'', hp'', hread, hdone''⟩ := h c' hc'
      exact ⟨p'', hp'', hread, fun hnot => hdone'' fun hmem => hnot (List.mem_cons_of_mem _ hmem)⟩

end

theorem Readable.canonical (h : Readable fs cwd p) : ∃ c, fs.canonical cwd p = .ok c := by
  obtain ⟨loc, bytes, text, hfound, -⟩ := h
  exact ⟨pathOf loc, canonical_eq_ok.2 ⟨loc, _, hfound, rfl⟩⟩

/-- A file that is met is to be done until all that it imports is met. -/
theorem Explored.meet (h : Explored fs cwd seen pending) (hc : fs.canonical cwd p = .ok c) (hp : Readable fs cwd p) :
    Explored fs cwd (c :: seen) (c :: pending) := by
  intro d hd
  rcases List.mem_cons.1 hd with rfl | hd
  · exact ⟨p, hc, hp, fun hnot => absurd List.mem_cons_self hnot⟩
  · obtain ⟨p', hp', hread, hdone⟩ := h d hd
    refine ⟨p', hp', hread, fun hnot q hq => ?_⟩
    obtain ⟨d', hd', hcq⟩ := hdone (fun hmem => hnot (List.mem_cons_of_mem _ hmem)) q hq
    exact ⟨d', List.mem_cons_of_mem _ hd', hcq⟩

theorem Explored.finish (h : Explored fs cwd seen (c :: pending)) (hc : fs.canonical cwd p = .ok c)
    (hp : Readable fs cwd p) (hdone : ∀ q ∈ successors fs cwd p, ∃ d ∈ seen, fs.canonical cwd q = .ok d) :
    Explored fs cwd seen pending := by
  intro d hd
  by_cases heq : d = c
  · exact ⟨p, heq ▸ hc, hp, fun _ => hdone⟩
  · obtain ⟨p', hp', hread, hdone'⟩ := h d hd
    exact ⟨p', hp', hread, fun hnot => hdone' (by simpa [heq] using hnot)⟩

/-- A job that comes to its end meets all that it calls for, and all that this leads to. -/
theorem Runs.explored (h : Runs fs cwd job v log result v') (hok : result = .ok marks) :
    (∀ t ∈ job.targets, ∃ d ∈ v'.seen, fs.canonical cwd t = .ok d) ∧
      ∀ pending, Explored fs cwd v.seen pending → Explored fs cwd v'.seen pending := by
  induction h generalizing marks with
  | missing | unreadable | failed => cases hok
  | again hc hseen => exact ⟨by simpa [Job.targets] using ⟨_, hseen, hc⟩, fun _ h => h⟩
  | done => exact ⟨by simp [Job.targets, targets, localReferences], fun _ h => h⟩
  | char _ ih =>
      obtain ⟨marks', hok, -⟩ := map_eq_ok.1 hok
      exact ih hok
  | kept hremote _ ih =>
      obtain ⟨marks', hok, -⟩ := map_eq_ok.1 hok
      obtain ⟨htargets, hexplored⟩ := ih hok
      exact ⟨by rwa [Job.targets, targets_kept hremote], hexplored⟩
  | @read path v c content log result v' hc hnew hread hrest ih =>
      obtain ⟨htargets, hexplored⟩ := ih hok
      have hp : Readable fs cwd path := readable_iff.2 ⟨content, hread⟩
      have hseen : c ∈ v'.seen := hrest.seen_suffix.subset List.mem_cons_self
      refine ⟨by simpa [Job.targets] using ⟨c, hseen, hc⟩, fun pending h => ?_⟩
      refine (hexplored _ (h.meet hc hp)).finish hc hp fun q hq => htargets q ?_
      rwa [successors_eq hread] at hq
  | @inlined base rule ps v log marks' v₁ log' result v'' hlocal _ hrest ihfile ihrest =>
      obtain ⟨marks'', hok, -⟩ := map_eq_ok.1 hok
      obtain ⟨htarget, hfile⟩ := ihfile rfl
      obtain ⟨htargets, hexplored⟩ := ihrest hok
      refine ⟨fun t ht => ?_, fun pending h => hexplored _ (hfile _ h)⟩
      rw [Job.targets, targets_inlined hlocal] at ht
      rcases List.mem_cons.1 ht with rfl | ht
      · obtain ⟨d, hd, hcd⟩ := htarget _ (List.mem_singleton_self _)
        exact ⟨d, hrest.seen_suffix.subset hd, hcd⟩
      · exact htargets t ht

/-- A failure is for what is come to first from some paths, when certain files were met. What the imports before lead
to was met, and there is no way from there to anything that cannot be read. -/
def FailsFirst (fs : FileSystem) (cwd : Location) (seen ts : List Path) (e : Failure) : Prop :=
  ∃ k is t q cause, e = .read q cause ∧ fs.readText cwd q = .error cause ∧ ts[k]? = some t ∧ Strays fs cwd seen t is q ∧
    ∀ pending, Explored fs cwd seen pending → ∀ j js t' q', ts[j]? = some t' → Strays fs cwd pending t' js q' →
      ¬ j :: js < k :: is

theorem FailsFirst.here (hread : fs.readText cwd path = .error cause) :
    FailsFirst fs cwd seen [path] (.read path cause) := by
  refine ⟨0, [], path, path, cause, rfl, hread, rfl, .here (not_readable hread), fun _ _ j js t' q' _ _ hlt => ?_⟩
  rcases List.cons_lt_cons_iff.1 hlt with hj | ⟨-, hjs⟩
  · exact Nat.not_lt_zero _ hj
  · exact List.not_lt_nil _ hjs

theorem FailsFirst.read (hc : fs.canonical cwd path = .ok c) (hnew : c ∉ seen) (hp : Readable fs cwd path)
    (h : FailsFirst fs cwd (c :: seen) (successors fs cwd path) e) : FailsFirst fs cwd seen [path] e := by
  obtain ⟨k, is, t, q, cause, he, hq, hk, hstrays, hfirst⟩ := h
  refine ⟨0, k :: is, path, q, cause, he, hq, rfl, .step hc hnew hk hstrays, ?_⟩
  intro pending hexplored j js t' q' hj hs hlt
  cases j with
  | succ j => simp at hj
  | zero =>
      obtain rfl : path = t' := by simpa using hj
      rcases List.cons_lt_cons_iff.1 hlt with hzero | ⟨-, hlt⟩
      · exact Nat.not_lt_zero _ hzero
      · cases hs with
        | here hnot => exact hnot hp
        | step hc' _ hi hs =>
            obtain rfl := Except.ok.inj (hc.symm.trans hc')
            exact hfirst _ (hexplored.meet hc hp) _ _ _ _ hi hs hlt

theorem FailsFirst.head (h : FailsFirst fs cwd seen [path] e) (ts : List Path) :
    FailsFirst fs cwd seen (path :: ts) e := by
  obtain ⟨k, is, t, q, cause, he, hq, hk, hstrays, hfirst⟩ := h
  cases k with
  | succ k => simp at hk
  | zero =>
      refine ⟨0, is, t, q, cause, he, hq, hk, hstrays, fun pending hexplored j js t' q' hj hs hlt => ?_⟩
      cases j with
      | succ j =>
          rcases List.cons_lt_cons_iff.1 hlt with hzero | ⟨hzero, -⟩
          · exact Nat.not_lt_zero _ hzero
          · cases hzero
      | zero => exact hfirst pending hexplored 0 js t' q' hj hs hlt

/-- Where nothing that cannot be read is come to from the first path, the first is that from the others. -/
theorem FailsFirst.tail {seen' ts : List Path} (h : FailsFirst fs cwd seen' ts e) (hsub : seen ⊆ seen')
    (hexplored : ∀ pending, Explored fs cwd seen pending → Explored fs cwd seen' pending)
    (hnone : ∀ pending, Explored fs cwd seen pending → ∀ js q, ¬ Strays fs cwd pending path js q) :
    FailsFirst fs cwd seen (path :: ts) e := by
  obtain ⟨k, is, t, q, cause, he, hq, hk, hstrays, hfirst⟩ := h
  refine ⟨k + 1, is, t, q, cause, he, hq, hk, hstrays.mono hsub, fun pending hseen j js t' q' hj hs hlt => ?_⟩
  cases j with
  | zero =>
      obtain rfl : path = t' := by simpa using hj
      exact hnone pending hseen js q' hs
  | succ j =>
      refine hfirst pending (hexplored pending hseen) j js t' q' hj hs ?_
      rcases List.cons_lt_cons_iff.1 hlt with hlt | ⟨heq, hlt⟩
      · exact List.cons_lt_cons_iff.2 (.inl (Nat.lt_of_succ_lt_succ hlt))
      · exact List.cons_lt_cons_iff.2 (.inr ⟨Nat.succ.inj heq, hlt⟩)

/-- A job that fails does so at what cannot be read and is come to first. -/
theorem Runs.fails_first (hw : fs.WellFormed) (hfree : fs.LinkFree []) (h : Runs fs cwd job v log result v')
    (herror : result = .error e) : FailsFirst fs cwd v.seen job.targets e := by
  induction h with
  | again | done => cases herror
  | missing hc =>
      cases herror
      exact .here (readText_error hc)
  | unreadable _ _ hread =>
      cases herror
      exact .here hread
  | char _ ih => exact ih (map_eq_error.1 herror)
  | kept hremote _ ih =>
      rw [Job.targets, targets_kept hremote]
      exact ih (map_eq_error.1 herror)
  | read hc hnew hread _ ih =>
      refine .read hc hnew (readable_iff.2 ⟨_, hread⟩) ?_
      rw [successors_eq hread]
      exact ih herror
  | failed hlocal _ ih =>
      rw [Job.targets, targets_inlined hlocal]
      exact (ih herror).head _
  | inlined hlocal hfile _ _ ih =>
      rw [Job.targets, targets_inlined hlocal]
      obtain ⟨htarget, hexplored⟩ := hfile.explored rfl
      refine (ih (map_eq_error.1 herror)).tail hfile.seen_suffix.subset hexplored fun pending hseen js q => ?_
      obtain ⟨d, hd, hc⟩ := htarget _ (List.mem_singleton_self _)
      exact (hexplored pending hseen).not_strays hw hfree hc hd

/-- Where all that was met is done, all that it leads to can be read. -/
theorem Explored.readable (hw : fs.WellFormed) (hfree : fs.LinkFree []) (h : Explored fs cwd seen [])
    (hc : fs.canonical cwd p = .ok c) (hseen : c ∈ seen) (hreach : Relation.ReflTransGen (Imports fs cwd) p q) :
    Readable fs cwd q := by
  have hmet : ∃ d ∈ seen, fs.canonical cwd q = .ok d := by
    induction hreach with
    | refl => exact ⟨c, hseen, hc⟩
    | tail _ hq ih =>
        obtain ⟨d, hd, hcd⟩ := ih
        obtain ⟨p', hcp', -, hdone⟩ := h d hd
        obtain ⟨i, hi⟩ := List.mem_iff_getElem?.1 hq
        obtain ⟨q', hi', hsame⟩ := successors_spelled hw hfree hcd hcp' hi
        rw [← hsame]
        exact hdone List.not_mem_nil q' (List.mem_of_getElem? hi')
  obtain ⟨d, hd, hcd⟩ := hmet
  obtain ⟨p', hcp', ⟨loc, bytes, text, hfound, htext⟩, -⟩ := h d hd
  exact ⟨loc, bytes, text, by rw [found_of_canonical hw hcp' hcd, hfound], htext⟩

/-- A bundling succeeds just if everything that the entry leads to can be read, however often, by whatever paths and in
whatever circles files are imported, and fails else, at what is come to first. -/
theorem bundle_fails_first {w : World} (hw : w.files.WellFormed) (hfree : w.files.LinkFree []) (entry : Path) :
    ((∃ text w', bundle entry w = .ok text w') ↔
      ∀ q, Relation.ReflTransGen (Imports w.files w.cwd) entry q → Readable w.files w.cwd q) ∧
    ((¬ ∀ q, Relation.ReflTransGen (Imports w.files w.cwd) entry q → Readable w.files w.cwd q) →
      ∃ is q cause w', FirstUnreadable w.files w.cwd entry is q ∧ w.files.readText w.cwd q = .error cause ∧
        bundle entry w = .error (.read q cause) w') := by
  obtain ⟨log, result, visit, hruns, hbundle⟩ := exists_bundle_runs w entry
  have hnone : ∀ pending, Explored w.files w.cwd [] pending := fun pending c hc => absurd hc List.not_mem_nil
  cases result with
  | ok marks =>
      obtain ⟨htarget, hexplored⟩ := hruns.explored rfl
      obtain ⟨c, hseen, hc⟩ := htarget entry (List.mem_singleton_self _)
      have hall : ∀ q, Relation.ReflTransGen (Imports w.files w.cwd) entry q → Readable w.files w.cwd q := fun q hreach =>
        (hexplored [] (hnone [])).readable hw hfree hc hseen hreach
      exact ⟨iff_of_true ⟨_, _, hbundle⟩ hall, fun hnot => absurd hall hnot⟩
  | error e =>
      obtain ⟨k, is, t, q, cause, rfl, hread, hk, hstrays, hfirst⟩ := hruns.fails_first hw hfree rfl
      cases k with
      | succ k => simp [Job.targets] at hk
      | zero =>
          obtain rfl : entry = t := by simpa [Job.targets] using hk
          have hleast : FirstUnreadable w.files w.cwd entry is q := by
            refine ⟨hstrays, fun js q' hs hlt => hfirst [] (hnone []) 0 js entry q' rfl hs ?_⟩
            exact List.cons_lt_cons_iff.2 (.inr ⟨rfl, hlt⟩)
          have hnot : ¬ ∀ q, Relation.ReflTransGen (Imports w.files w.cwd) entry q → Readable w.files w.cwd q :=
            fun hall => hstrays.reaches.2 (hall q hstrays.reaches.1)
          refine ⟨iff_of_false ?_ hnot, fun _ => ⟨is, q, cause, _, hleast, hread, hbundle⟩⟩
          rintro ⟨text, w', hok⟩
          cases hbundle.symm.trans hok

/-- Two stylesheets that import each other, by several paths, and a file that is not there. -/
def circle : World :=
  ⟨⟨[(["index.css"], .file "@import 'parts/a.css';\n@import './parts/../parts/a.css';\n@import 'gone.css';\n".toUTF8),
    (["parts"], .directory),
    (["parts", "a.css"], .file "@import '../index.css';\n@import 'a.css';\na \x7b\x7d\n".toUTF8)]⟩, [], []⟩

/-- The third import of the entry is the first that cannot be read, though the others come back to the entry. -/
theorem circle_breaks : ∃ is w', FirstUnreadable circle.files circle.cwd ⟨"index.css"⟩ is ⟨"gone.css"⟩ ∧
    bundle ⟨"index.css"⟩ circle = .error (.read ⟨"gone.css"⟩ .missing) w' := by
  have hfirst := bundle_fails_first (w := circle) (by decide +kernel) (by decide +kernel) ⟨"index.css"⟩
  have hfails : ¬ ∃ text w', bundle ⟨"index.css"⟩ circle = .ok text w' := by
    rw [← Action.succeeds_iff]
    decide +kernel
  obtain ⟨is, q, cause, w', hleast, -, hrun⟩ := hfirst.2 (mt hfirst.1.2 hfails)
  have hgone : (match bundle ⟨"index.css"⟩ circle with
      | .error (.read q cause) _ => decide (q = ⟨"gone.css"⟩ ∧ cause = .missing)
      | _ => false) = true := by decide +kernel
  rw [hrun] at hgone
  obtain ⟨rfl, rfl⟩ := of_decide_eq_true hgone
  exact ⟨is, w', hleast, hrun⟩

end SiteTree.Stylesheet
