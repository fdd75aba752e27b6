import Mathlib.Logic.Relation
import SiteTree.Page
import SiteTree.Proofs.FileSystem.Way

/-!
How looking up a path ends, told step by step: with something found, in front of a name that is missing, in front of
a file that stands where a directory is wanted, or with too many links behind it. Included templates are looked for in
a second place only if the first look-up ends in front of a missing name.
-/

namespace SiteTree.FileSystem

open Relation

/-- Where a look-up stands: the links that it may still follow, a place, and the stretches that are left. -/
structure Stance where
  links : Nat
  place : Location
  rest : List String

def Stance.start (cwd : Location) (p : Path) : Stance :=
  ⟨maxLinks + 1, startOf cwd p.text.toList, steps p.text.toList⟩

/-- One step of a look-up. -/
inductive Advances (fs : FileSystem) : Stance → Stance → Prop
  | skip {n cur s rest} (h : fs.at? cur = some .directory) (hs : s = "" ∨ s = ".") :
      Advances fs ⟨n + 1, cur, s :: rest⟩ ⟨n + 1, cur, rest⟩
  | up {n cur rest} (h : fs.at? cur = some .directory) :
      Advances fs ⟨n + 1, cur, ".." :: rest⟩ ⟨n + 1, cur.dropLast, rest⟩
  | enter {n cur s node rest} (h : fs.at? cur = some .directory) (hs : IsStep s) (hn : fs.at? (cur ++ [s]) = some node)
      (hlink : ∀ target, node ≠ .link target) : Advances fs ⟨n + 1, cur, s :: rest⟩ ⟨n + 1, cur ++ [s], rest⟩
  | jump {n cur s target rest} (h : fs.at? cur = some .directory) (hs : IsStep s)
      (hn : fs.at? (cur ++ [s]) = some (.link target)) : Advances fs ⟨n + 1, cur, s :: rest⟩
        ⟨n, startOf cur target.toList, targetSteps target.toList rest⟩

/-- How it ends. -/
inductive Ends (fs : FileSystem) : Stance → Except Cause (Location × FileNode) → Prop
  | found {n cur node} (h : fs.at? cur = some node) : Ends fs ⟨n + 1, cur, []⟩ (.ok (cur, node))
  | gone {n cur rest} (h : fs.at? cur = none) : Ends fs ⟨n + 1, cur, rest⟩ (.error .missing)
  | absent {n cur s rest} (h : fs.at? cur = some .directory) (hs : IsStep s) (hn : fs.at? (cur ++ [s]) = none) :
      Ends fs ⟨n + 1, cur, s :: rest⟩ (.error .missing)
  | blocked {n cur node s rest} (h : fs.at? cur = some node) (hnode : node ≠ .directory) :
      Ends fs ⟨n + 1, cur, s :: rest⟩ (.error .notDirectory)
  | lost {cur rest} : Ends fs ⟨0, cur, rest⟩ (.error .linkLoop)

variable {fs : FileSystem} {cwd loc : Location} {p : Path} {node : FileNode} {cause : Cause}
  {r : Except Cause (Location × FileNode)}

/-- What a walk that follows every link comes to, with a free place told as a missing one. -/
def Stance.outcome (fs : FileSystem) (x : Stance) : Except Cause (Location × FileNode) :=
  match fs.walk true x.links x.place x.rest with
  | .ok (.found loc node) => .ok (loc, node)
  | .ok (.vacant _ _ _) => .error .missing
  | .error cause => .error cause

theorem Advances.outcome_eq {x y : Stance} (h : Advances fs x y) : x.outcome fs = y.outcome fs := by
  cases h with
  | skip h hs => simp [Stance.outcome, walk_succ, walkWith, h, hs]
  | up h => simp [Stance.outcome, walk_succ, walkWith, h]
  | @enter n cur s node rest h hs hn hlink =>
      cases node with
      | link target => exact absurd rfl (hlink target)
      | file | directory => simp [Stance.outcome, walk_succ, walkWith, h, hs.1, hs.2.1, hs.2.2, hn]
  | jump h hs hn => simp [Stance.outcome, walk_succ, walkWith, h, hs.1, hs.2.1, hs.2.2, hn]

theorem outcome_of_advances {x y : Stance} (h : ReflTransGen (Advances fs) x y) : x.outcome fs = y.outcome fs := by
  induction h with
  | refl => rfl
  | tail _ hstep ih => exact ih.trans hstep.outcome_eq

theorem Ends.outcome_eq {x : Stance} (h : Ends fs x r) : x.outcome fs = r := by
  cases h with
  | found h => simp [Stance.outcome, walk_succ, walkWith, h]
  | @gone n cur rest h => cases rest <;> simp [Stance.outcome, walk_succ, walkWith, h]
  | @absent n cur s rest h hs hn =>
      by_cases hrest : rest = [""]
      · simp [Stance.outcome, walk_succ, walkWith, h, hs.1, hs.2.1, hs.2.2, hn, hrest]
      · cases rest <;> simp [Stance.outcome, walk_succ, walkWith, h, hs.1, hs.2.1, hs.2.2, hn, hrest]
  | @blocked n cur node s rest h hnode =>
      cases node with
      | directory => exact absurd rfl hnode
      | file | link => simp [Stance.outcome, walk_succ, walkWith, h]
  | lost => rfl

/-- Every look-up comes to an end. -/
theorem exists_ends (x : Stance) : ∃ y r, ReflTransGen (Advances fs) x y ∧ Ends fs y r := by
  obtain ⟨n, cur, rest⟩ := x
  induction n generalizing cur rest with
  | zero => exact ⟨_, _, .refl, .lost⟩
  | succ n ihn =>
      induction rest generalizing cur with
      | nil =>
          cases h : fs.at? cur with
          | none => exact ⟨_, _, .refl, .gone h⟩
          | some node => exact ⟨_, _, .refl, .found h⟩
      | cons s rest ih =>
          have hgo : ∀ {y}, Advances fs ⟨n + 1, cur, s :: rest⟩ y → (∃ z r, ReflTransGen (Advances fs) y z ∧ Ends fs z r) →
              ∃ z r, ReflTransGen (Advances fs) ⟨n + 1, cur, s :: rest⟩ z ∧ Ends fs z r :=
            fun hstep ⟨z, r, hz, hr⟩ => ⟨z, r, .head hstep hz, hr⟩
          cases stepCase fs cur s with
          | stop hd =>
              cases h : fs.at? cur with
              | none => exact ⟨_, _, .refl, .gone h⟩
              | some node => exact ⟨_, _, .refl, .blocked h fun he => hd (he ▸ h)⟩
          | filler h hs => exact hgo (.skip h hs) (ih cur)
          | up h hs => exact hgo (hs ▸ .up h) (ih cur.dropLast)
          | vacant h hs hn => exact ⟨_, _, .refl, .absent h hs hn⟩
          | link target h hs hn => exact hgo (.jump h hs hn) (ihn _ _)
          | enter node h hs hn hlink => exact hgo (.enter h hs hn hlink) (ih (cur ++ [s]))

/-- Looking the path up ends like this. An empty path leads nowhere. -/
def Comes (fs : FileSystem) (cwd : Location) (p : Path) (r : Except Cause (Location × FileNode)) : Prop :=
  if p.text = "" then r = .error .missing else ∃ x, ReflTransGen (Advances fs) (.start cwd p) x ∧ Ends fs x r

theorem found_eq_outcome (hp : p.text ≠ "") : fs.found cwd p = (Stance.start cwd p).outcome fs := by
  have hempty : p.isEmpty = false := by simpa [Path.isEmpty] using hp
  rw [found, resolve, hempty, Stance.outcome]
  simp only [Bool.false_eq_true, if_false, resolveSteps, Stance.start]
  rcases fs.walk true (maxLinks + 1) (startOf cwd p.text.toList) (steps p.text.toList) with cause | ⟨loc, node⟩ | _ <;> rfl

theorem found_iff_comes : fs.found cwd p = r ↔ fs.Comes cwd p r := by
  rw [Comes]
  split
  · next hp =>
    have hfound : fs.found cwd p = .error .missing := by
      rw [found, resolve, Path.isEmpty, hp]
      rfl
    rw [hfound, eq_comm]
  next hp =>
  rw [found_eq_outcome hp]
  constructor
  · rintro rfl
    have hends : ∃ x r, ReflTransGen (Advances fs) (.start cwd p) x ∧ Ends fs x r := exists_ends _
    obtain ⟨x, r, hx, hr⟩ := hends
    rw [outcome_of_advances hx, hr.outcome_eq]
    exact ⟨x, hx, hr⟩
  · rintro ⟨x, hx, hr⟩
    rw [outcome_of_advances hx, hr.outcome_eq]

/-- The three ways for a look-up to fail. -/
theorem found_error (h : fs.found cwd p = .error cause) : cause = .missing ∨ cause = .notDirectory ∨ cause = .linkLoop := by
  have hcomes := found_iff_comes.1 h
  rw [Comes] at hcomes
  split at hcomes
  · cases hcomes
    exact .inl rfl
  · obtain ⟨x, -, hends⟩ := hcomes
    cases hends with
    | gone | absent => exact .inl rfl
    | blocked => exact .inr (.inl rfl)
    | lost => exact .inr (.inr rfl)

/-- Looking the path up ends in front of a name that is missing. -/
def IsAbsent (fs : FileSystem) (cwd : Location) (p : Path) : Prop := fs.Comes cwd p (.error .missing)

/-- There is a file at the path. -/
def HasFile (fs : FileSystem) (cwd : Location) (p : Path) : Prop := ∃ loc bytes, fs.Comes cwd p (.ok (loc, .file bytes))

/-- What is in the way of reading where there is no file, though no name is missing: something else, such as a
directory, at the path; a file that stands where a directory is wanted; or more links than are followed. -/
inductive Hinders (fs : FileSystem) (cwd : Location) (p : Path) : Cause → Prop
  | other {loc : Location} {node : FileNode} (h : fs.Comes cwd p (.ok (loc, node))) (hnode : ¬ node.IsFile) :
      Hinders fs cwd p .isDirectory
  | blocked (h : fs.Comes cwd p (.error .notDirectory)) : Hinders fs cwd p .notDirectory
  | lost (h : fs.Comes cwd p (.error .linkLoop)) : Hinders fs cwd p .linkLoop

theorem file_absent_or_hindered (fs : FileSystem) (cwd : Location) (p : Path) :
    fs.HasFile cwd p ∨ fs.IsAbsent cwd p ∨ ∃ cause, fs.Hinders cwd p cause := by
  cases h : fs.found cwd p with
  | ok place =>
      obtain ⟨loc, node⟩ := place
      by_cases hnode : node.IsFile
      · obtain ⟨bytes, rfl⟩ := hnode
        exact .inl ⟨loc, bytes, found_iff_comes.1 h⟩
      · exact .inr (.inr ⟨_, .other (found_iff_comes.1 h) hnode⟩)
  | error cause =>
      rcases found_error h with rfl | rfl | rfl
      · exact .inr (.inl (found_iff_comes.1 h))
      · exact .inr (.inr ⟨_, .blocked (found_iff_comes.1 h)⟩)
      · exact .inr (.inr ⟨_, .lost (found_iff_comes.1 h)⟩)

theorem readText_of_file {bytes : ByteArray} (h : fs.found cwd p = .ok (loc, .file bytes)) :
    fs.readText cwd p = (String.fromUTF8? bytes).elim (.error .notText) .ok := by
  rw [readText, readFile, h]
  simp only [bind, Except.bind]
  cases String.fromUTF8? bytes <;> rfl

theorem readText_of_other (h : fs.found cwd p = .ok (loc, node)) (hnode : ¬ node.IsFile) :
    fs.readText cwd p = .error .isDirectory := by
  rw [readText, readFile, h]
  cases node with
  | file bytes => exact absurd ⟨bytes, rfl⟩ hnode
  | link | directory => rfl

theorem readText_of_error (h : fs.found cwd p = .error cause) : fs.readText cwd p = .error cause := by
  rw [readText, readFile, h]
  rfl

theorem readText_missing_iff : fs.readText cwd p = .error .missing ↔ fs.IsAbsent cwd p := by
  rw [IsAbsent, ← found_iff_comes]
  constructor
  · intro h
    cases hfound : fs.found cwd p with
    | error cause =>
        rw [readText_of_error hfound] at h
        cases h
        rfl
    | ok place =>
        obtain ⟨loc, node⟩ := place
        by_cases hnode : node.IsFile
        · obtain ⟨bytes, rfl⟩ := hnode
          rw [readText_of_file hfound] at h
          cases htext : String.fromUTF8? bytes <;> rw [htext] at h <;> cases h
        · rw [readText_of_other hfound hnode] at h
          cases h
  · exact readText_of_error

theorem Hinders.readText (h : fs.Hinders cwd p cause) : fs.readText cwd p = .error cause := by
  cases h with
  | other h hnode => exact readText_of_other (found_iff_comes.2 h) hnode
  | blocked h => exact readText_of_error (found_iff_comes.2 h)
  | lost h => exact readText_of_error (found_iff_comes.2 h)

theorem Hinders.ne_missing (h : fs.Hinders cwd p cause) : cause ≠ .missing := by
  cases h <;> decide

end SiteTree.FileSystem

namespace SiteTree.Page

open FileSystem

variable {fs : FileSystem} {cwd : Location} {root : Path} {name text : String} {cause : Cause} {paths : List Path} {path : Path}

theorem firstText_ok (h : fs.readText cwd path = .ok text) : firstText fs cwd (path :: paths) = .ok (some text) := by
  rw [firstText, h]

theorem firstText_absent (h : fs.IsAbsent cwd path) : firstText fs cwd (path :: paths) = firstText fs cwd paths := by
  simp only [firstText, readText_missing_iff.2 h]

theorem firstText_error (h : fs.readText cwd path = .error cause) (hne : cause ≠ .missing) :
    firstText fs cwd (path :: paths) =
      Template.refuse .badOperation ("could not read include '" ++ path.text ++ "': " ++ cause.text) := by
  rw [firstText, h]
  split
  · next he => cases he
  · next he => cases he; exact absurd rfl hne
  · next he => cases he; rfl

/-- Nothing is found just if at each path a name is missing. -/
theorem firstText_none : firstText fs cwd paths = .ok none ↔ ∀ p ∈ paths, fs.IsAbsent cwd p := by
  induction paths with
  | nil => simp [firstText]
  | cons p paths ih =>
      rw [List.forall_mem_cons, ← ih]
      cases h : fs.readText cwd p with
      | ok text =>
          have habsent : ¬ fs.IsAbsent cwd p := fun ha => nomatch h.symm.trans (readText_missing_iff.2 ha)
          simp [firstText_ok h, habsent]
      | error cause =>
          by_cases hc : cause = .missing
          · have habsent : fs.IsAbsent cwd p := readText_missing_iff.1 (hc ▸ h)
            simp [firstText_absent habsent, habsent]
          · have habsent : ¬ fs.IsAbsent cwd p := fun ha => by
              rw [readText_missing_iff.2 ha] at h
              cases h
              exact hc rfl
            simp [firstText_error h hc, habsent, Template.refuse]

variable (fs cwd root name)

/-- An included template is the file in the working directory, if there is one. If there is none, the source root is
tried just if a name is missing on the way to that place: anything else that stands there, or a file in the place of a
directory, ends the search. It comes to nothing just if a name is missing on the way to both places. -/
theorem findInclude_falls_back :
    (fs.HasFile cwd ⟨name⟩ ∨ fs.IsAbsent cwd ⟨name⟩ ∨ ∃ cause, fs.Hinders cwd ⟨name⟩ cause) ∧
    (∀ text, fs.readText cwd ⟨name⟩ = .ok text → findInclude fs cwd root name = .ok (some text)) ∧
    (∀ text, ¬ fs.HasFile cwd ⟨name⟩ → fs.readText cwd (root.child name) = .ok text →
      (findInclude fs cwd root name = .ok (some text) ↔ fs.IsAbsent cwd ⟨name⟩)) ∧
    (∀ cause, fs.Hinders cwd ⟨name⟩ cause → findInclude fs cwd root name =
      Template.refuse .badOperation ("could not read include '" ++ name ++ "': " ++ cause.text)) ∧
    (findInclude fs cwd root name = .ok none ↔ fs.IsAbsent cwd ⟨name⟩ ∧ fs.IsAbsent cwd (root.child name)) := by
  have hhindered : ∀ cause, fs.Hinders cwd ⟨name⟩ cause → findInclude fs cwd root name =
      Template.refuse .badOperation ("could not read include '" ++ name ++ "': " ++ cause.text) :=
    fun cause h => firstText_error h.readText h.ne_missing
  refine ⟨file_absent_or_hindered fs cwd ⟨name⟩, fun text h => firstText_ok h, fun text hfile htext => ?_, hhindered, ?_⟩
  · constructor
    · intro h
      rcases file_absent_or_hindered fs cwd ⟨name⟩ with hf | ha | ⟨cause, hc⟩
      · exact absurd hf hfile
      · exact ha
      · rw [hhindered cause hc] at h
        cases h
    · intro h
      rw [findInclude, firstText_absent h, firstText_ok htext]
  · rw [findInclude, firstText_none]
    simp

/-- A file in the working directory, which has nothing to do with the site, has the name of a directory of the source. -/
def blockedInclude : FileSystem :=
  ⟨[(["parts"], .file "x".toUTF8), (["src"], .directory), (["src", "parts"], .directory),
    (["src", "parts", "head.ejs"], .file "H".toUTF8)]⟩

/-- It keeps the template from being found in the source root. -/
theorem blockedInclude_refused :
    (¬ blockedInclude.HasFile [] ⟨"parts/head.ejs"⟩ ∧
      blockedInclude.readText [] (Path.child ⟨"src"⟩ "parts/head.ejs") = .ok "H") ∧
    findInclude blockedInclude [] ⟨"src"⟩ "parts/head.ejs" ≠ .ok (some "H") := by
  have hfound : blockedInclude.found [] ⟨"parts/head.ejs"⟩ = .error .notDirectory := by decide +kernel
  have hroot : blockedInclude.found [] (Path.child ⟨"src"⟩ "parts/head.ejs") =
      .ok (["src", "parts", "head.ejs"], .file "H".toUTF8) := by decide +kernel
  have htext : String.fromUTF8? "H".toUTF8 = some "H" := by decide +kernel
  refine ⟨⟨?_, ?_⟩, ?_⟩
  · rintro ⟨loc, bytes, h⟩
    cases hfound.symm.trans (found_iff_comes.2 h)
  · rw [readText_of_file hroot, htext]
    rfl
  · rw [findInclude, firstText_error (readText_of_error hfound) (by decide)]
    exact nofun

end SiteTree.Page
