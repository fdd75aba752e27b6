import SiteTree.Proofs.FileSystem.Tree

/-!
Where a list of stretches leads, as a relation with one rule for each step of the walk, and what
changes in a tree leave it as it is.
-/

namespace SiteTree

/-- What the walk takes for a name. -/
def IsStep (s : String) : Prop := s ≠ "" ∧ s ≠ "." ∧ s ≠ ".."

theorem IsName.isStep {s : String} (h : IsName s) : IsStep s := ⟨h.1, h.2.1, h.2.2.1⟩

namespace FileSystem

/-- The stretches lead from a directory to a place, with at most so many links on the way. -/
inductive Leads (fs : FileSystem) (follow : Bool) : Nat → Location → List String → Place → Prop
  | stop {n cur node} (h : fs.at? cur = some node) : Leads fs follow (n + 1) cur [] (.found cur node)
  | skip {n cur s rest p} (h : fs.at? cur = some .directory) (hs : s = "" ∨ s = ".")
      (hl : Leads fs follow (n + 1) cur rest p) : Leads fs follow (n + 1) cur (s :: rest) p
  | up {n cur rest p} (h : fs.at? cur = some .directory)
      (hl : Leads fs follow (n + 1) cur.dropLast rest p) : Leads fs follow (n + 1) cur (".." :: rest) p
  | vacant {n cur s} (h : fs.at? cur = some .directory) (hs : IsStep s)
      (hn : fs.at? (cur ++ [s]) = none) : Leads fs follow (n + 1) cur [s] (.vacant cur s false)
  | slashed {n cur s} (h : fs.at? cur = some .directory) (hs : IsStep s)
      (hn : fs.at? (cur ++ [s]) = none) : Leads fs follow (n + 1) cur [s, ""] (.vacant cur s true)
  | stay {n cur s target} (h : fs.at? cur = some .directory) (hs : IsStep s)
      (hn : fs.at? (cur ++ [s]) = some (.link target)) (hf : follow = false) :
      Leads fs follow (n + 1) cur [s] (.found (cur ++ [s]) (.link target))
  | jump {n cur s target rest p} (h : fs.at? cur = some .directory) (hs : IsStep s)
      (hn : fs.at? (cur ++ [s]) = some (.link target)) (hf : rest ≠ [] ∨ follow = true)
      (hl : Leads fs follow n (startOf cur target.toList) (targetSteps target.toList rest) p) :
      Leads fs follow (n + 1) cur (s :: rest) p
  | enter {n cur s node rest p} (h : fs.at? cur = some .directory) (hs : IsStep s)
      (hn : fs.at? (cur ++ [s]) = some node) (hlink : ∀ target, node ≠ .link target)
      (hl : Leads fs follow (n + 1) (cur ++ [s]) rest p) : Leads fs follow (n + 1) cur (s :: rest) p

variable {fs fs' : FileSystem} {follow : Bool} {n : Nat} {cur loc parent : Location}
  {l rest : List String} {s name target : String} {node : FileNode} {p : Place}

theorem walk_succ : fs.walk follow (n + 1) cur l = fs.walkWith (fun cur target rest =>
    fs.walk follow n (startOf cur target.toList) (targetSteps target.toList rest)) follow cur l := rfl

theorem Leads.of_walk (h : fs.walk follow n cur l = .ok p) : fs.Leads follow n cur l p := by
  induction n generalizing cur l with
  | zero => cases h
  | succ n ihn =>
      induction l generalizing cur with
      | nil =>
          rw [walk_succ, walkWith] at h
          split at h
          · cases h; exact .stop ‹_›
          · cases h
      | cons s rest ih =>
          rw [walk_succ, walkWith] at h
          split at h
          · next hcur =>
            split at h
            · next hs => exact .skip hcur (by simpa using hs) (ih h)
            · next hs =>
              split at h
              · next hup => subst hup; exact .up hcur (ih h)
              · next hup =>
                have hstep : IsStep s := by
                  simp only [Bool.or_eq_true, decide_eq_true_eq, not_or] at hs
                  exact ⟨hs.1, hs.2, hup⟩
                split at h
                · next hn =>
                  split at h
                  · next hr => subst hr; cases h; exact .vacant hcur hstep hn
                  · split at h
                    · next hr => subst hr; cases h; exact .slashed hcur hstep hn
                    · cases h
                · next target hn =>
                  split at h
                  · next hr =>
                    simp only [Bool.and_eq_true, List.isEmpty_iff, Bool.not_eq_true'] at hr
                    obtain ⟨rfl, rfl⟩ := hr
                    cases h
                    exact .stay hcur hstep hn rfl
                  · next hr =>
                    refine .jump hcur hstep hn ?_ (ihn h)
                    by_contra hc
                    simp [not_or] at hc
                    simp [hc] at hr
                · next node hlink hn =>
                    exact .enter hcur hstep hn (fun t => by rintro rfl; exact hlink t rfl) (ih h)
          · cases h
          · cases h

theorem Leads.walk_eq (h : fs.Leads follow n cur l p) : fs.walk follow n cur l = .ok p := by
  induction h with
  | stop h => simp [walk_succ, walkWith, h]
  | skip h hs hl ih =>
      rw [walk_succ] at ih ⊢
      simp [walkWith, h, hs, ih]
  | up h hl ih =>
      rw [walk_succ] at ih ⊢
      simp [walkWith, h, ih]
  | vacant h hs hn => simp [walk_succ, walkWith, h, hs.1, hs.2.1, hs.2.2, hn]
  | slashed h hs hn => simp [walk_succ, walkWith, h, hs.1, hs.2.1, hs.2.2, hn]
  | stay h hs hn hf => simp [walk_succ, walkWith, h, hs.1, hs.2.1, hs.2.2, hn, hf]
  | jump h hs hn hf hl ih =>
      have hr : ∀ r : List String, r ≠ [] ∨ follow = true → (r.isEmpty && !follow) = false := by
        rintro r (hr | hr)
        · simp [hr]
        · simp [hr]
      simp [walk_succ, walkWith, h, hs.1, hs.2.1, hs.2.2, hn, hr _ hf, ih]
  | @enter n cur s node rest p h hs hn hlink hl ih =>
      rw [walk_succ] at ih ⊢
      cases node with
      | link target => exact absurd rfl (hlink target)
      | file bytes => simp [walkWith, h, hs.1, hs.2.1, hs.2.2, hn, ih]
      | directory => simp [walkWith, h, hs.1, hs.2.1, hs.2.2, hn, ih]

/-- The location that a place has or would have. -/
def Place.location : Place → Location
  | .found loc _ => loc
  | .vacant parent name _ => parent ++ [name]

theorem Leads.at?_found (h : fs.Leads follow n cur l (.found loc node)) : fs.at? loc = some node := by
  generalize hp : Place.found loc node = p at h
  induction h with
  | stop h => cases hp; exact h
  | skip _ _ _ ih | up _ _ ih | jump _ _ _ _ _ ih | enter _ _ _ _ _ ih => exact ih hp
  | vacant | slashed => cases hp
  | stay _ _ hn => cases hp; exact hn

theorem Leads.vacancy {slashed : Bool} (h : fs.Leads follow n cur l (.vacant parent name slashed)) :
    fs.at? parent = some .directory ∧ IsStep name ∧ fs.at? (parent ++ [name]) = none := by
  generalize hp : Place.vacant parent name slashed = p at h
  induction h with
  | stop | stay => cases hp
  | skip _ _ _ ih | up _ _ ih | jump _ _ _ _ _ ih | enter _ _ _ _ _ ih => exact ih hp
  | vacant h hs hn | slashed h hs hn => cases hp; exact ⟨h, hs, hn⟩

theorem Leads.start (h : fs.Leads follow n cur l (.found loc .directory)) :
    fs.at? cur = some .directory := by
  cases h with
  | stop h | skip h | up h | jump h | enter h => exact h

/-- All that is not a file in the first tree is there in the second one too. -/
def Outgrows (fs fs' : FileSystem) : Prop :=
  ∀ x node, fs.at? x = some node → ¬ node.IsFile → fs'.at? x = some node

theorem Outgrows.directory (h : fs.Outgrows fs') (hx : fs.at? loc = some .directory) :
    fs'.at? loc = some .directory := h loc _ hx nofun

theorem Outgrows.link (h : fs.Outgrows fs') (hx : fs.at? loc = some (.link target)) :
    fs'.at? loc = some (.link target) := h loc _ hx nofun

theorem Leads.mono (h : fs.Leads follow n cur l (.found loc .directory)) (ho : fs.Outgrows fs') :
    fs'.Leads follow n cur l (.found loc .directory) := by
  generalize hp : Place.found loc .directory = p at h
  induction h with
  | stop h => cases hp; exact .stop (ho.directory h)
  | skip h hs _ ih => exact .skip (ho.directory h) hs (ih hp)
  | up h _ ih => exact .up (ho.directory h) (ih hp)
  | vacant | slashed => cases hp
  | stay => cases hp
  | jump h hs hn hf _ ih => exact .jump (ho.directory h) hs (ho.link hn) hf (ih hp)
  | enter h hs hn hlink hl ih =>
      subst hp
      have hd := hl.start
      rw [hn] at hd
      cases hd
      exact .enter (ho.directory h) hs (ho.directory hn) hlink (ih rfl)

theorem filter_targetSteps (target : List Char) (l : List String) :
    (targetSteps target l).filter (· ≠ "") = (steps target).filter (· ≠ "") ++ l.filter (· ≠ "") := by
  cases l <;> simp [targetSteps]

/-- A way to a directory can be gone on. The links used up so far count. -/
theorem Leads.walk_append (h : fs.Leads true n cur l (.found loc .directory)) (follow : Bool)
    (hrest : rest ≠ []) :
    ∃ m, fs.walk follow n cur (l.filter (· ≠ "") ++ rest) = fs.walk follow (m + 1) loc rest := by
  generalize hp : Place.found loc .directory = p at h
  induction h with
  | @stop n cur node h => cases hp; exact ⟨n, rfl⟩
  | @skip n cur s l p h hs hl ih =>
      obtain ⟨m, hm⟩ := ih hp
      refine ⟨m, ?_⟩
      rw [← hm]
      rcases hs with rfl | rfl
      · rfl
      · simp [walk_succ, walkWith, h]
  | @up n cur l p h hl ih =>
      obtain ⟨m, hm⟩ := ih hp
      refine ⟨m, ?_⟩
      rw [← hm]
      simp [walk_succ, walkWith, h]
  | vacant | slashed => cases hp
  | stay => cases hp
  | @jump n cur s target l p h hs hn hf hl ih =>
      obtain ⟨m, hm⟩ := ih hp
      refine ⟨m, ?_⟩
      have hne : l.filter (· ≠ "") ++ rest ≠ [] := by simp [hrest]
      rw [← hm, filter_targetSteps, List.filter_cons_of_pos (by simpa using hs.1), List.cons_append,
        walk_succ, walkWith]
      simp [h, hs.1, hs.2.1, hs.2.2, hn, hrest, targetSteps]
  | @enter n cur s node l p h hs hn hlink hl ih =>
      obtain ⟨m, hm⟩ := ih hp
      refine ⟨m, ?_⟩
      rw [← hm]
      subst hp
      have hd := hl.start
      rw [hn] at hd
      cases hd
      simp [walk_succ, walkWith, h, hs.1, hs.2.1, hs.2.2, hn]

end FileSystem

end SiteTree
