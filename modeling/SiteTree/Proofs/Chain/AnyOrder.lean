import Mathlib.Data.List.Forall2
import SiteTree.Proofs.Chain.LevelOrder

/-!
Links of which no two take the same file may stand in any order: each file has one link at most that
is not indifferent to it, and that link is found wherever it stands.
-/

namespace SiteTree.Chain

variable {σ ε : Type}

/-- The link declines the file in every state, and leaves the state as it is. -/
def Declines (l : Link σ ε) (source target : Path) : Prop := ∀ s, l.offer source target s = .ok .declined s

/-- Every file is declined by one of the two. -/
def Disjoint (l m : Link σ ε) : Prop := ∀ source target, Declines l source target ∨ Declines m source target

/-- The link that made a file. -/
def maker (links : List (Link σ ε)) (p : Waiting) : Option (Link σ ε) := p.producer.bind fun i => links[i]?

/-- The same file, made by the same link wherever that stands. -/
structure SameFile (links links' : List (Link σ ε)) (p q : Waiting) : Prop where
  source : p.source = q.source
  target : p.target = q.target
  maker : maker links p = maker links' q

variable {links links' : List (Link σ ε)} {l m : Link σ ε} {p q : Waiting} {queue queue' : List Waiting}
  {source target : Path} {i j k n : Nat} {s : σ} {announce : String → Waiting → EStateM ε σ Unit}

/-- A file that every link declines, but perhaps the one that made it, is taken by none. -/
theorem offerFrom_idle (h : ∀ j l, links[j]? = some l → p.producer = some (i + j) ∨ Declines l p.source p.target) :
    offerFrom p i links = pure none := by
  induction links generalizing i with
  | nil => rfl
  | cons l links ih =>
      have hrest : offerFrom p (i + 1) links = pure none := ih fun j m hm => by
        rw [Nat.add_right_comm, Nat.add_assoc]
        exact h (j + 1) m hm
      rw [offerFrom, hrest]
      split
      · rfl
      · next hp =>
        funext s
        simp only [bind, EStateM.bind, (h 0 l rfl).resolve_left hp s]

theorem offerFrom_declined (h : ∀ l ∈ links, Declines l p.source p.target) (i : Nat) :
    offerFrom p i links = pure none :=
  offerFrom_idle fun _ l hl => .inr (h l (List.mem_of_getElem? hl))

theorem drain_processed {taken : Bool} {files : List Waiting} {s' : σ}
    (h : process links announce p s = .ok (taken, files) s') (n : Nat) (queue : List Waiting) (applied : Bool) :
    drain links announce (n + 1) (p :: queue) applied s = drain links announce n (queue ++ files) (applied || taken) s' := by
  simp only [drain, bind, EStateM.bind, h]

/-- Files that no link takes end the run as it stands. -/
theorem drain_idle (announce : String → Waiting → EStateM ε σ Unit)
    (h : ∀ p ∈ queue, offerFrom p 0 links = pure none) (hn : queue.length ≤ n) (applied : Bool) (s : σ) :
    drain links announce n queue applied s = .ok (some applied) s := by
  induction queue generalizing n with
  | nil => cases n <;> rfl
  | cons p queue ih =>
      obtain ⟨m, rfl⟩ := Nat.exists_eq_add_of_le' hn
      have hrest := ih (n := m + queue.length) (fun q hq => h q (List.mem_cons_of_mem _ hq)) (Nat.le_add_left _ _)
      have hp : process links announce p s = .ok (false, []) s := by
        rw [process, h p List.mem_cons_self]
        rfl
      rw [List.length_cons, ← Nat.add_assoc, drain_processed hp, List.append_nil, Bool.or_false]
      exact hrest

/-- What one link at a position answers, when no other is asked. -/
def offerOne (p : Waiting) (i : Nat) (l : Link σ ε) : EStateM ε σ (Option (Nat × String × Outcome)) :=
  if p.producer = some i then pure none
  else do
    match ← l.offer p.source p.target with
    | .declined => pure none
    | outcome => pure (some (i, l.name, outcome))

theorem offerFrom_sole (hk : links[k]? = some l)
    (hrest : ∀ j m, links[j]? = some m → j ≠ k → Declines m p.source p.target) (i : Nat) :
    offerFrom p i links = offerOne p (i + k) l := by
  induction links generalizing i k with
  | nil => cases hk
  | cons m links ih =>
      rw [offerFrom]
      cases k with
      | zero =>
          obtain rfl := Option.some.inj hk
          have hnone : offerFrom p (i + 1) links = pure none := by
            refine offerFrom_declined (fun m hm => ?_) _
            obtain ⟨j, hj⟩ := List.mem_iff_getElem?.1 hm
            exact hrest (j + 1) m hj (Nat.succ_ne_zero j)
          rw [hnone]
          rfl
      | succ k =>
          have hm := hrest 0 m rfl (Nat.succ_ne_zero k).symm
          have hnext := ih hk (fun j m hj hne => hrest (j + 1) m hj fun h => hne (Nat.succ.inj h)) (i + 1)
          rw [hnext, Nat.add_right_comm, Nat.add_assoc]
          split
          · rfl
          · funext s
            simp only [bind, EStateM.bind, hm s]

/-- A link that does not decline a file is the only one. -/
theorem sole_of_disjoint (hdisj : links.Pairwise Disjoint) (hk : links[k]? = some l) (hl : ¬ Declines l source target)
    {j : Nat} (hj : links[j]? = some m) (hne : j ≠ k) : Declines m source target := by
  obtain ⟨hklt, rfl⟩ := List.getElem?_eq_some_iff.1 hk
  obtain ⟨hjlt, rfl⟩ := List.getElem?_eq_some_iff.1 hj
  rcases Nat.lt_or_gt_of_ne hne with hlt | hgt
  · exact (List.pairwise_iff_getElem.1 hdisj j k hjlt hklt hlt source target).resolve_right hl
  · exact (List.pairwise_iff_getElem.1 hdisj k j hklt hjlt hgt source target).resolve_left hl

theorem maker_eq_iff (hdisj : links.Pairwise Disjoint) (hk : links[k]? = some l) (hl : ¬ Declines l source target) :
    p.producer = some k ↔ maker links p = some l := by
  constructor
  · intro h
    rw [maker, h, Option.bind_some, hk]
  · intro h
    obtain ⟨j, hj, hjl⟩ := Option.bind_eq_some_iff.1 h
    by_contra hne
    exact hl (sole_of_disjoint hdisj hk hl hjl fun he => hne (he ▸ hj))

/-- The ways in which two orders of the links treat the same file. -/
inductive ProcessAlike (links links' : List (Link σ ε)) :
    EStateM.Result ε σ (Bool × List Waiting) → EStateM.Result ε σ (Bool × List Waiting) → Prop
  | failed (e : ε) (s : σ) : ProcessAlike links links' (.error e s) (.error e s)
  | done (taken : Bool) (s : σ) {files files' : List Waiting} (h : List.Forall₂ (SameFile links links') files files') :
      ProcessAlike links links' (.ok (taken, files) s) (.ok (taken, files') s)

theorem Outcome.files_alike (hi : links[i]? = some l) (hj : links'[j]? = some l) (outcome : Outcome) :
    List.Forall₂ (SameFile links links') (Outcome.files i outcome) (Outcome.files j outcome) := by
  cases outcome with
  | declined | finished => exact .nil
  | produced paths =>
      refine List.forall₂_map_left_iff.2 (List.forall₂_map_right_iff.2 (List.forall₂_same.2 fun path _ => ?_))
      exact ⟨rfl, rfl, hi.trans hj.symm⟩

theorem process_alike (tell : String → Path → Path → EStateM ε σ Unit) (hperm : links'.Perm links)
    (hdisj : links.Pairwise Disjoint) (hdisj' : links'.Pairwise Disjoint)
    (h : SameFile links links' p q) (s : σ) :
    ProcessAlike links links' (process links (fun name p => tell name p.source p.target) p s)
      (process links' (fun name p => tell name p.source p.target) q s) := by
  obtain ⟨hsource, htarget, hmaker⟩ := h
  by_cases hall : ∀ l ∈ links, Declines l p.source p.target
  · have hall' : ∀ l ∈ links', Declines l q.source q.target := fun l hl =>
      hsource ▸ htarget ▸ hall l (hperm.subset hl)
    rw [process, process, offerFrom_declined hall, offerFrom_declined hall']
    exact .done false s .nil
  · push Not at hall
    obtain ⟨l, hl, hdecl⟩ := hall
    have hdecl' : ¬ Declines l q.source q.target := hsource ▸ htarget ▸ hdecl
    obtain ⟨i, hi⟩ := List.mem_iff_getElem?.1 hl
    obtain ⟨j, hj⟩ := List.mem_iff_getElem?.1 (hperm.symm.subset hl)
    have hown : p.producer = some i ↔ q.producer = some j := by
      rw [maker_eq_iff hdisj hi hdecl, maker_eq_iff hdisj' hj hdecl', hmaker]
    rw [process, process, offerFrom_sole hi (fun _ _ => sole_of_disjoint hdisj hi hdecl) 0,
      offerFrom_sole hj (fun _ _ => sole_of_disjoint hdisj' hj hdecl') 0, Nat.zero_add, Nat.zero_add, offerOne, offerOne]
    by_cases hmade : p.producer = some i
    · rw [if_pos hmade, if_pos (hown.1 hmade)]
      exact .done false s .nil
    · rw [if_neg hmade, if_neg (mt hown.2 hmade), ← hsource, ← htarget]
      simp only [bind, EStateM.bind]
      cases l.offer p.source p.target s with
      | error e s' => exact .failed e s'
      | ok outcome s' =>
          cases outcome with
          | declined => exact .done false s' .nil
          | finished | produced =>
              simp only [pure, EStateM.pure, EStateM.bind]
              cases tell l.name p.source p.target s' with
              | error e s'' => exact .failed e s''
              | ok u s'' => exact .done true s'' (Outcome.files_alike hi hj _)

/-- The queues hold the same files at every step. -/
theorem drain_alike (tell : String → Path → Path → EStateM ε σ Unit) (hperm : links'.Perm links)
    (hdisj : links.Pairwise Disjoint) (hdisj' : links'.Pairwise Disjoint)
    (h : List.Forall₂ (SameFile links links') queue queue') (n : Nat) (applied : Bool) (s : σ) :
    drain links' (fun name p => tell name p.source p.target) n queue' applied s =
      drain links (fun name p => tell name p.source p.target) n queue applied s := by
  induction n generalizing queue queue' applied s with
  | zero => cases h <;> rfl
  | succ n ih =>
      cases h with
      | nil => rfl
      | cons hp hqueue =>
          have halike := process_alike tell hperm hdisj hdisj' hp s
          rw [drain, drain]
          simp only [bind, EStateM.bind]
          generalize process links _ _ s = r at halike
          generalize process links' _ _ s = r' at halike
          cases halike with
          | failed => rfl
          | done taken s' hfiles => exact ih (List.rel_append hqueue hfiles) _ s'

theorem Disjoint.symm (h : Disjoint l m) : Disjoint m l := fun source target => (h source target).symm

/-- Links that do not share a file may be put in another order. -/
theorem run_perm (tell : String → Path → Path → EStateM ε σ Unit) (hperm : links'.Perm links)
    (hdisj : links.Pairwise Disjoint) (limit : Nat) (source target : Path) :
    run links' (fun name p => tell name p.source p.target) limit source target =
      run links (fun name p => tell name p.source p.target) limit source target := by
  funext s
  refine drain_alike tell hperm hdisj (hdisj.perm hperm.symm Disjoint.symm) ?_ limit false s
  exact .cons ⟨rfl, rfl, rfl⟩ .nil

/-- A link that did something, and the source and target that it did it with. -/
abbrev Application (T : Type) := T × Path × Path

variable {T : Type} {rule : T → Rule ε} {ts ts' : List T} {a b c t : T} {outcome : Outcome} {limit : Nat}

/-- A link that follows a rule, and notes each file that it does not decline. -/
def applier (rule : T → Rule ε) (t : T) : Link (List (Application T)) ε where
  name := "custom"
  offer source target := match rule t source target with
    | .ok .declined => pure .declined
    | .ok outcome => do
      modify fun log => log ++ [(t, source, target)]
      pure outcome
    | .error e => do
      modify fun log => log ++ [(t, source, target)]
      throw e

/-- A run of a chain that follows rules, with the files that its links took or failed in. -/
def runApplied (rule : T → Rule ε) (ts : List T) (limit : Nat) (source target : Path) :
    EStateM.Result ε (List (Application T)) (Option Bool) :=
  run (ts.map (applier rule)) (fun _ _ => pure ()) limit source target []

def Outcome.paths : Outcome → List Path
  | .produced paths => paths
  | _ => []

theorem applier_declines (h : rule t source target = .ok .declined) : Declines (applier rule t) source target := by
  intro log
  simp only [applier, h]
  rfl

theorem applier_offer (h : rule t source target = .ok outcome) (ho : outcome ≠ .declined) (log : List (Application T)) :
    (applier rule t).offer source target log = .ok outcome (log ++ [(t, source, target)]) := by
  cases outcome with
  | declined => exact absurd rfl ho
  | finished | produced =>
      simp only [applier, h]
      rfl

theorem not_declines_of_offer (h : rule t source target = .ok outcome) (ho : outcome ≠ .declined) :
    ¬ Declines (applier rule t) source target := by
  intro hd
  have hnone := hd []
  rw [applier_offer h ho] at hnone
  cases hnone

/-- Whoever else has made the file, the one link that does not decline it takes it. -/
theorem process_applied (hdisj : (ts.map (applier rule)).Pairwise Disjoint) (hk : ts[k]? = some t)
    (h : rule t p.source p.target = .ok outcome) (ho : outcome ≠ .declined) (hp : p.producer ≠ some k)
    (log : List (Application T)) : process (ts.map (applier rule)) (fun _ _ => pure ()) p log =
      .ok (true, Outcome.files k outcome) (log ++ [(t, p.source, p.target)]) := by
  have hlink : (ts.map (applier rule))[k]? = some (applier rule t) := by rw [List.getElem?_map, hk]; rfl
  have hoffer := applier_offer h ho log
  rw [process, offerFrom_sole hlink (fun _ _ => sole_of_disjoint hdisj hlink (not_declines_of_offer h ho)) 0, Nat.zero_add,
    offerOne, if_neg hp]
  simp only [bind, EStateM.bind, hoffer]
  cases outcome with
  | declined => exact absurd rfl ho
  | finished | produced => rfl

theorem files_eq_map (k : Nat) (outcome : Outcome) :
    Outcome.files k outcome = (Outcome.paths outcome).map fun path => ⟨path, path, some k⟩ := by
  cases outcome <;> rfl

theorem disjoint_appliers (hdisj : ts.Pairwise fun a b => ∀ source target,
      rule a source target = .ok .declined ∨ rule b source target = .ok .declined) :
    (ts.map (applier rule)).Pairwise Disjoint :=
  List.pairwise_map.2 (hdisj.imp fun h source target => (h source target).imp applier_declines applier_declines)

/-- The order of links does not matter if no file is taken by two of them, or one fails in what another takes.
A file that one of them makes and another takes is then taken once, by that one. -/
theorem runApplied_perm (hperm : ts'.Perm ts) (hdisj : ts.Pairwise fun a b => ∀ source target,
      rule a source target = .ok .declined ∨ rule b source target = .ok .declined) (source target : Path) :
    (∀ limit, runApplied rule ts' limit source target = runApplied rule ts limit source target) ∧
    ∀ a ∈ ts, ∀ b ∈ ts, a ≠ b → ∀ made outcome, rule a source target = .ok (.produced [made]) →
      rule b made made = .ok outcome → outcome ≠ .declined →
      (∀ path ∈ Outcome.paths outcome, ∀ c ∈ ts, c ≠ b → rule c path path = .ok .declined) →
      ∀ limit, (Outcome.paths outcome).length + 2 ≤ limit →
        runApplied rule ts' limit source target = .ok (some true) [(a, source, target), (b, made, made)] := by
  have hlinks := disjoint_appliers hdisj
  have hsame : ∀ limit, runApplied rule ts' limit source target = runApplied rule ts limit source target := fun limit =>
    congrFun (run_perm (fun _ _ _ => pure ()) (hperm.map _) hlinks limit source target) []
  refine ⟨hsame, fun a ha b hb hab made outcome hmade htaken ho hend limit hlimit => ?_⟩
  obtain ⟨i, hi⟩ := List.mem_iff_getElem?.1 ha
  obtain ⟨j, hj⟩ := List.mem_iff_getElem?.1 hb
  obtain ⟨n, rfl⟩ := Nat.exists_eq_add_of_le' hlimit
  have hij : i ≠ j := by
    rintro rfl
    exact hab (Option.some.inj (hi.symm.trans hj))
  have hfirst := process_applied (p := ⟨source, target, none⟩) hlinks hi hmade nofun nofun []
  have hsecond := process_applied (p := ⟨made, made, some i⟩) hlinks hj htaken ho (by simpa using hij)
    [(a, source, target)]
  have hidle : ∀ p ∈ Outcome.files j outcome, offerFrom p 0 (ts.map (applier rule)) = pure none := by
    rw [files_eq_map]
    intro p hp
    obtain ⟨path, hpath, rfl⟩ := List.mem_map.1 hp
    refine offerFrom_idle fun k l hl => ?_
    rw [List.getElem?_map] at hl
    obtain ⟨c, hc, rfl⟩ := Option.map_eq_some_iff.1 hl
    by_cases hcb : c = b
    · have hkj : k = j := by
        by_contra hne
        have hlink : (ts.map (applier rule))[j]? = some (applier rule b) := by rw [List.getElem?_map, hj]; rfl
        have hlink' : (ts.map (applier rule))[k]? = some (applier rule b) := by rw [List.getElem?_map, hc, hcb]; rfl
        have htakes := not_declines_of_offer htaken ho
        exact htakes (sole_of_disjoint hlinks hlink htakes hlink' hne)
      exact .inl (by rw [hkj, Nat.zero_add])
    · exact .inr (applier_declines (hend path hpath c (List.mem_of_getElem? hc) hcb))
  have hdone := drain_idle (fun _ _ => pure ()) hidle (n := n + (Outcome.paths outcome).length)
    (by rw [files_eq_map, List.length_map]; exact Nat.le_add_left _ _) true [(a, source, target), (b, made, made)]
  rw [hsame, runApplied, run, ← Nat.add_assoc, drain_processed hfirst]
  exact (drain_processed hsecond _ [] _).trans hdone

/-- Makes one file of another in its one part, and takes what that has made in its other part. -/
def relay : Bool → Rule Failure
  | false, source, _ => .ok (if source = ⟨"one"⟩ then .produced [⟨"other"⟩] else .declined)
  | true, source, _ => .ok (if source = ⟨"other"⟩ then .finished else .declined)

theorem relay_either_way : [true, false].Perm [false, true] ∧
    ([false, true].Pairwise fun a b => ∀ source target,
      relay a source target = .ok .declined ∨ relay b source target = .ok .declined) ∧
    runApplied relay [true, false] 2 ⟨"one"⟩ ⟨"site"⟩ =
      .ok (some true) [(false, ⟨"one"⟩, ⟨"site"⟩), (true, ⟨"other"⟩, ⟨"other"⟩)] := by
  have hperm : [true, false].Perm [false, true] := .swap _ _ _
  have hdisj : [false, true].Pairwise fun a b => ∀ source target,
      relay a source target = .ok .declined ∨ relay b source target = .ok .declined := by
    refine List.pairwise_pair.2 fun source target => ?_
    by_cases h : source = ⟨"one"⟩
    · exact .inr (by rw [relay, h]; rfl)
    · exact .inl (by rw [relay, if_neg h])
  refine ⟨hperm, hdisj, ?_⟩
  exact (runApplied_perm hperm hdisj ⟨"one"⟩ ⟨"site"⟩).2 false (by decide) true (by decide) (by decide) ⟨"other"⟩
    .finished rfl rfl nofun nofun 2 (by decide)

end SiteTree.Chain
