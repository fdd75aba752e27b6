import Mathlib.Data.List.Infix
import SiteTree.Chain
import SiteTree.Failure

/-!
The queue of a chain goes through the files by generations: first the file that it starts with, then all
that is made of it, then all that is made of those. The calls of a run are told from the rules alone.
-/

namespace SiteTree.Chain

variable {ε : Type}

/-- What a link answers, told from the source and the target. -/
abbrev Rule (ε : Type) := Path → Path → Except ε Outcome

/-- A call of the link at a position. -/
structure Call where
  link : Nat
  source : Path
  target : Path
  deriving DecidableEq, Repr

/-- A link that follows a rule, and notes its calls. -/
def recorder (r : Rule ε × Nat) : Link (List Call) ε where
  name := "custom"
  offer source target := do
    modify fun log => log ++ [⟨r.2, source, target⟩]
    match r.1 source target with
    | .ok outcome => pure outcome
    | .error e => throw e

def recorders (rules : List (Rule ε)) : List (Link (List Call) ε) := rules.zipIdx.map recorder

def quiet (_ : String) (_ : Waiting) : EStateM ε (List Call) Unit := pure ()

/-- A run of a chain that follows rules, with the calls made until its end. -/
def runRecorded (rules : List (Rule ε)) (limit : Nat) (source target : Path) :
    EStateM.Result ε (List Call) (Option Bool) :=
  run (recorders rules) quiet limit source target []

def rootOf (source target : Path) : Waiting := ⟨source, target, none⟩

/-- The links that a file may be offered to, in order: all but the one that made it. -/
def candidates (rules : List (Rule ε)) (p : Waiting) : List (Rule ε × Nat) :=
  rules.zipIdx.filter fun r => p.producer ≠ some r.2

def declines (p : Waiting) (r : Rule ε × Nat) : Bool :=
  match r.1 p.source p.target with
  | .ok .declined => true
  | _ => false

/-- The first candidate that does not decline. -/
def taker? (rules : List (Rule ε)) (p : Waiting) : Option (Rule ε × Nat) :=
  (candidates rules p).find? fun r => !declines p r

/-- The calls for one file: the candidates up to the taker. -/
def calls (rules : List (Rule ε)) (p : Waiting) : List Call :=
  ((candidates rules p).takeWhile (declines p) ++ (taker? rules p).toList).map fun r => ⟨r.2, p.source, p.target⟩

def failure? (rules : List (Rule ε)) (p : Waiting) : Option ε :=
  match taker? rules p with
  | none => none
  | some r => match r.1 p.source p.target with
    | .ok _ => none
    | .error e => some e

/-- The files that the taker makes, each to be taken as it is, by any link but that one. -/
def made (rules : List (Rule ε)) (p : Waiting) : List Waiting :=
  match taker? rules p with
  | none => []
  | some r => match r.1 p.source p.target with
    | .ok (.produced paths) => paths.map fun path => ⟨path, path, some r.2⟩
    | _ => []

def generation (rules : List (Rule ε)) (root : Waiting) : Nat → List Waiting
  | 0 => [root]
  | depth + 1 => (generation rules root depth).flatMap (made rules)

/-- The files of all generations up to a depth, one generation after another. -/
def levels (rules : List (Rule ε)) (root : Waiting) (depth : Nat) : List Waiting :=
  (List.range depth).flatMap (generation rules root)

variable {rules : List (Rule ε)} {root p : Waiting} {before queue rest : List Waiting} {log : List Call}
  {applied : Bool} {depth n : Nat} {e : ε}

/-- The links from a position on are asked one after another. -/
theorem offerFrom_recorded (p : Waiting) (rules : List (Rule ε)) (i : Nat) (log : List Call) :
    offerFrom p i ((rules.zipIdx i).map recorder) log =
      let rs := (rules.zipIdx i).filter fun r => p.producer ≠ some r.2
      let asked := rs.takeWhile (declines p) ++ (rs.find? fun r => !declines p r).toList
      let log' := log ++ asked.map fun r => ⟨r.2, p.source, p.target⟩
      match rs.find? fun r => !declines p r with
      | none => .ok none log'
      | some r => match r.1 p.source p.target with
        | .ok outcome => .ok (some (r.2, "custom", outcome)) log'
        | .error e => .error e log' := by
  induction rules generalizing i log with
  | nil => simp [offerFrom, pure, EStateM.pure]
  | cons rule rules ih =>
      rw [List.zipIdx_cons, List.map_cons, offerFrom]
      by_cases hp : p.producer = some i
      · rw [if_pos hp, ih]
        simp [hp]
      · rw [if_neg hp]
        have hcall : (recorder (rule, i)).offer p.source p.target log = match rule p.source p.target with
            | .ok outcome => .ok outcome (log ++ [⟨i, p.source, p.target⟩])
            | .error e => .error e (log ++ [⟨i, p.source, p.target⟩]) := by
          have hnote : (modify fun log => log ++ [⟨i, p.source, p.target⟩] : EStateM ε (List Call) PUnit) log =
              .ok () (log ++ [⟨i, p.source, p.target⟩]) := rfl
          simp only [recorder, bind, EStateM.bind, hnote]
          cases rule p.source p.target <;> rfl
        simp only [bind, EStateM.bind, hcall]
        cases hr : rule p.source p.target with
        | error e => simp [hp, declines, hr]
        | ok outcome =>
            cases outcome with
            | declined =>
                simp only [ih]
                simp [hp, declines, hr]
            | finished => simp [hp, declines, hr, pure, EStateM.pure, recorder]
            | produced paths => simp [hp, declines, hr, pure, EStateM.pure, recorder]

theorem process_recorded (rules : List (Rule ε)) (p : Waiting) (log : List Call) :
    process (recorders rules) quiet p log = match failure? rules p with
      | some e => .error e (log ++ calls rules p)
      | none => .ok ((taker? rules p).isSome, made rules p) (log ++ calls rules p) := by
  have hoffer := offerFrom_recorded p rules 0 log
  simp only [process, recorders, bind, EStateM.bind, hoffer, failure?, calls, made, taker?, candidates]
  cases (List.filter (fun r => p.producer ≠ some r.2) rules.zipIdx).find? fun r => !declines p r with
  | none => rfl
  | some r =>
      dsimp only
      cases r.1 p.source p.target with
      | error e => rfl
      | ok outcome => cases outcome <;> rfl

/-- The files taken up so far are those of the first levels and a part of the next generation. The queue has
the rest of that generation, and behind it what has been made of the part. -/
def Frontier (rules : List (Rule ε)) (root : Waiting) (before queue : List Waiting) : Prop :=
  ∃ depth part rest, before = levels rules root depth ++ part ∧ generation rules root depth = part ++ rest ∧
    queue = rest ++ part.flatMap (made rules)

theorem levels_succ (rules : List (Rule ε)) (root : Waiting) (depth : Nat) :
    levels rules root (depth + 1) = levels rules root depth ++ generation rules root depth := by
  simp [levels, List.range_succ]

theorem levels_isPrefix {m : Nat} (h : depth ≤ m) : levels rules root depth <+: levels rules root m := by
  induction m, h using Nat.le_induction with
  | base => exact List.prefix_rfl
  | succ m _ ih =>
      rw [levels_succ]
      exact ih.trans (List.prefix_append _ _)

/-- There is nothing behind a generation that is empty. -/
theorem levels_of_nil {m : Nat} (h : generation rules root depth = []) (hm : depth ≤ m) :
    generation rules root m = [] ∧ levels rules root m = levels rules root depth := by
  induction m, hm using Nat.le_induction with
  | base => exact ⟨h, rfl⟩
  | succ m _ ih =>
      obtain ⟨hgen, hlevels⟩ := ih
      rw [generation, levels_succ, hgen, hlevels]
      simp

theorem levels_end {m : Nat} (h : generation rules root depth = []) (p : Waiting) :
    ¬ levels rules root depth ++ [p] <+: levels rules root m := by
  intro hp
  have hpre := hp.trans (levels_isPrefix (Nat.le_max_right depth m))
  rw [(levels_of_nil h (Nat.le_max_left depth m)).2] at hpre
  have hlen := hpre.length_le
  rw [List.length_append, List.length_singleton] at hlen
  omega

namespace Frontier

theorem start (rules : List (Rule ε)) (root : Waiting) : Frontier rules root [] [root] :=
  ⟨0, [], [root], rfl, rfl, rfl⟩

/-- What is made of a file goes behind the rest, which is where its generation is up to. -/
theorem step (h : Frontier rules root before (p :: queue)) :
    Frontier rules root (before ++ [p]) (queue ++ made rules p) := by
  obtain ⟨depth, part, rest, rfl, hgen, hqueue⟩ := h
  cases rest with
  | cons q rest =>
      obtain ⟨rfl, rfl⟩ := List.cons.inj hqueue
      exact ⟨depth, part ++ [p], rest, by simp, by simp [hgen], by simp⟩
  | nil =>
      rw [List.append_nil] at hgen
      have hnext : generation rules root (depth + 1) = p :: queue := by
        rw [generation, hgen, hqueue, List.nil_append]
      exact ⟨depth + 1, [p], queue, by rw [levels_succ, hgen], hnext, by simp⟩

theorem of_nil (h : Frontier rules root before []) :
    ∃ depth, generation rules root depth = [] ∧ before = levels rules root depth := by
  obtain ⟨depth, part, rest, rfl, hgen, hqueue⟩ := h
  obtain ⟨rfl, hmade⟩ := List.append_eq_nil_iff.1 hqueue.symm
  rw [List.append_nil] at hgen
  exact ⟨depth + 1, by rw [generation, hgen, hmade], by rw [levels_succ, hgen]⟩

theorem exists_prefix (h : Frontier rules root before queue) : ∃ depth, before <+: levels rules root depth := by
  obtain ⟨depth, part, rest, rfl, hgen, -⟩ := h
  refine ⟨depth + 1, rest, ?_⟩
  rw [levels_succ, hgen, List.append_assoc]

/-- The next file in the levels is the first one in the queue. -/
theorem head (h : Frontier rules root before queue) (hp : before ++ [p] <+: levels rules root depth) :
    ∃ rest, queue = p :: rest := by
  cases queue with
  | nil =>
      obtain ⟨last, hlast, rfl⟩ := h.of_nil
      exact absurd hp (levels_end hlast p)
  | cons q rest =>
      obtain ⟨m, hm⟩ := h.step.exists_prefix
      have hq := hm.trans (levels_isPrefix (Nat.le_max_left m depth))
      have hpq := List.prefix_of_prefix_length_le (hp.trans (levels_isPrefix (Nat.le_max_right m depth))) hq (by simp)
      have he := hpq.eq_of_length (by simp)
      simp only [List.append_cancel_left_eq, List.cons.injEq, and_true] at he
      exact ⟨rest, by rw [he]⟩

end Frontier

/-- The answer of a run, told by what was taken up. -/
def anyTaken (rules : List (Rule ε)) (before : List Waiting) : Bool := before.any fun p => (taker? rules p).isSome

theorem drain_step (hp : failure? rules p = none) (n : Nat) (queue : List Waiting) (applied : Bool) (log : List Call) :
    drain (recorders rules) quiet (n + 1) (p :: queue) applied log =
      drain (recorders rules) quiet n (queue ++ made rules p) (applied || (taker? rules p).isSome)
        (log ++ calls rules p) := by
  have hprocess := process_recorded rules p log
  rw [hp] at hprocess
  simp only [drain, bind, EStateM.bind, hprocess]

theorem drain_failed (hp : failure? rules p = some e) (n : Nat) (queue : List Waiting) (applied : Bool)
    (log : List Call) :
    drain (recorders rules) quiet (n + 1) (p :: queue) applied log = .error e (log ++ calls rules p) := by
  have hprocess := process_recorded rules p log
  rw [hp] at hprocess
  simp only [drain, bind, EStateM.bind, hprocess]

/-- The ways in which a run can end, told by the levels. -/
inductive Ends (rules : List (Rule ε)) (root : Waiting) : EStateM.Result ε (List Call) (Option Bool) → Prop
  | unfinished (log : List Call) : Ends rules root (.ok none log)
  | finished (depth : Nat) (hgen : generation rules root depth = [])
      (hok : ∀ p ∈ levels rules root depth, failure? rules p = none) :
      Ends rules root (.ok (some (anyTaken rules (levels rules root depth)))
        ((levels rules root depth).flatMap (calls rules)))
  | failed (depth : Nat) (before : List Waiting) (p : Waiting) (e : ε)
      (hlevels : before ++ [p] <+: levels rules root depth) (hok : ∀ q ∈ before, failure? rules q = none)
      (hp : failure? rules p = some e) : Ends rules root (.error e ((before ++ [p]).flatMap (calls rules)))

theorem drain_ends (h : Frontier rules root before queue) (hok : ∀ p ∈ before, failure? rules p = none) (n : Nat) :
    Ends rules root (drain (recorders rules) quiet n queue (anyTaken rules before) (before.flatMap (calls rules))) := by
  induction n generalizing before queue with
  | zero =>
      cases queue with
      | nil =>
          obtain ⟨depth, hgen, rfl⟩ := h.of_nil
          exact .finished depth hgen hok
      | cons p queue => exact .unfinished _
  | succ n ih =>
      cases queue with
      | nil =>
          obtain ⟨depth, hgen, rfl⟩ := h.of_nil
          exact .finished depth hgen hok
      | cons p queue =>
          cases hp : failure? rules p with
          | some e =>
              rw [drain_failed hp, ← List.flatMap_singleton (calls rules), ← List.flatMap_append]
              obtain ⟨depth, hpre⟩ := h.step.exists_prefix
              exact .failed depth before p e hpre hok hp
          | none =>
              have hnext := ih h.step (by simpa [or_imp, forall_and] using ⟨hok, hp⟩)
              rw [drain_step hp]
              simpa [anyTaken] using hnext

/-- Files that do not fail are taken up in the order of the levels. -/
theorem drain_follows (h : before <+: levels rules root depth) (hok : ∀ p ∈ before, failure? rules p = none) :
    ∃ queue, Frontier rules root before queue ∧ ∀ n,
      drain (recorders rules) quiet (before.length + n) [root] false [] =
        drain (recorders rules) quiet n queue (anyTaken rules before) (before.flatMap (calls rules)) := by
  induction before using List.reverseRecOn with
  | nil => exact ⟨[root], .start rules root, fun n => by simp [anyTaken]⟩
  | append_singleton before p ih =>
      obtain ⟨hbefore, hp⟩ : (∀ q ∈ before, failure? rules q = none) ∧ failure? rules p = none := by
        simpa [or_imp, forall_and] using hok
      obtain ⟨queue, hf, hrun⟩ := ih ((List.prefix_append _ _).trans h) hbefore
      obtain ⟨rest, rfl⟩ := hf.head h
      refine ⟨rest ++ made rules p, hf.step, fun n => ?_⟩
      rw [List.length_append, List.length_singleton, Nat.add_assoc, Nat.add_comm 1 n, hrun, drain_step hp]
      simp [anyTaken]

/-- If the root is not taken then nothing is made, and it is the only file. -/
theorem anyTaken_levels (hgen : generation rules root depth = []) :
    anyTaken rules (levels rules root depth) = (taker? rules root).isSome := by
  obtain ⟨m, rfl⟩ : ∃ m, depth = m + 1 := by
    cases depth with
    | zero => cases hgen
    | succ m => exact ⟨m, rfl⟩
  have hroot : root ∈ levels rules root (m + 1) :=
    (levels_isPrefix (Nat.succ_le_succ (Nat.zero_le m))).subset (by simp [levels, generation])
  cases ht : taker? rules root with
  | some r => exact List.any_eq_true.2 ⟨root, hroot, by rw [ht]; rfl⟩
  | none =>
      have hone : generation rules root 1 = [] := by simp [generation, made, ht]
      rw [(levels_of_nil hone (Nat.succ_le_succ (Nat.zero_le m))).2]
      simp [levels, generation, anyTaken, ht]

/-- A run ends in order just if the generations come to an end and no file fails. Then it has made the calls of
all files, level by level, and its answer is whether a link took the root. It fails just if some file does, and
then with the first failure and the calls up to it. -/
theorem run_level_order (rules : List (Rule ε)) (source target : Path) :
    (∀ applied log, (∃ limit, runRecorded rules limit source target = .ok (some applied) log) ↔
      applied = (taker? rules (rootOf source target)).isSome ∧
      ∃ depth, generation rules (rootOf source target) depth = [] ∧
        (∀ p ∈ levels rules (rootOf source target) depth, failure? rules p = none) ∧
        log = (levels rules (rootOf source target) depth).flatMap (calls rules)) ∧
    ∀ e log, (∃ limit, runRecorded rules limit source target = .error e log) ↔
      ∃ depth before p, before ++ [p] <+: levels rules (rootOf source target) depth ∧
        (∀ q ∈ before, failure? rules q = none) ∧ failure? rules p = some e ∧
        log = (before ++ [p]).flatMap (calls rules) := by
  have hends : ∀ limit, Ends rules (rootOf source target) (runRecorded rules limit source target) :=
    fun limit => drain_ends (Frontier.start rules (rootOf source target)) (by simp) limit
  refine ⟨fun applied log => ⟨?_, ?_⟩, fun e log => ⟨?_, ?_⟩⟩
  · rintro ⟨limit, hrun⟩
    have hend := hends limit
    rw [hrun] at hend
    cases hend with
    | finished depth hgen hok => exact ⟨anyTaken_levels hgen, depth, hgen, hok, rfl⟩
  · rintro ⟨rfl, depth, hgen, hok, rfl⟩
    obtain ⟨queue, hf, hrun⟩ := drain_follows List.prefix_rfl hok
    have hqueue : queue = [] := by
      cases queue with
      | nil => rfl
      | cons p queue =>
          obtain ⟨m, hm⟩ := hf.step.exists_prefix
          exact absurd hm (levels_end hgen p)
    rw [hqueue, anyTaken_levels hgen] at hrun
    exact ⟨_, hrun 0⟩
  · rintro ⟨limit, hrun⟩
    have hend := hends limit
    rw [hrun] at hend
    cases hend with
    | failed depth before p _ hlevels hok hp => exact ⟨depth, before, p, hlevels, hok, hp, rfl⟩
  · rintro ⟨depth, before, p, hlevels, hok, hp, rfl⟩
    obtain ⟨queue, hf, hrun⟩ := drain_follows ((List.prefix_append _ _).trans hlevels) hok
    obtain ⟨rest, rfl⟩ := hf.head hlevels
    have hfails := hrun 1
    rw [drain_failed hp, ← List.flatMap_singleton (calls rules), ← List.flatMap_append] at hfails
    exact ⟨before.length + 1, hfails⟩

/-- Makes one file of another, and takes what it has made without making more. -/
def oneFromOther : Rule Failure
  | ⟨"one"⟩, _ => .ok (.produced [⟨"other"⟩])
  | _, _ => .ok .finished

/-- Only the position that made a file is left out, not the same rule in another position. -/
example : runRecorded [oneFromOther, oneFromOther] 2 ⟨"one"⟩ ⟨"site"⟩ =
    .ok (some true) [⟨0, ⟨"one"⟩, ⟨"site"⟩⟩, ⟨1, ⟨"other"⟩, ⟨"other"⟩⟩] := rfl

end SiteTree.Chain
