import SiteTree.Proofs.FileSystem.Descent

/-!
What a walk looks at. Only the places on its way decide where a path leads: in trees that agree there it
leads to the same.
-/

namespace SiteTree.FileSystem

open SiteTree.Path

variable {fs fs' : FileSystem} {follow : Bool} {n : Nat} {cwd cur loc x : Location} {l r rest : List String}
  {s : String} {node : FileNode} {p dir : Path} {I : Location → Prop}

/-- The places on the way through some stretches. For a link, `jump` tells the rest. -/
def wayWith (fs : FileSystem) (jump : Location → String → List String → List Location) :
    Location → List String → List Location
  | cur, [] => [cur]
  | cur, s :: rest => cur ::
    match fs.at? cur with
    | some .directory =>
      if s = "" || s = "." then wayWith fs jump cur rest
      else if s = ".." then wayWith fs jump cur.dropLast rest
      else (cur ++ [s]) ::
        match fs.at? (cur ++ [s]) with
        | none => []
        | some (.link target) => jump cur target rest
        | some _ => wayWith fs jump (cur ++ [s]) rest
    | _ => []

/-- The places that a walk looks at which follows every link. -/
def way (fs : FileSystem) : Nat → Location → List String → List Location
  | 0 => fun _ _ => []
  | n + 1 => wayWith fs fun cur target rest => way fs n (startOf cur target.toList) (targetSteps target.toList rest)

/-- The places on the way to what a path denotes. -/
def wayTo (fs : FileSystem) (cwd : Location) (p : Path) : List Location :=
  fs.way (maxLinks + 1) (startOf cwd p.text.toList) (steps p.text.toList)

/-- Trees that differ at most at certain places. -/
def SameOff (I : Location → Prop) (fs fs' : FileSystem) : Prop := ∀ x, ¬ I x → fs'.at? x = fs.at? x

/-- No such place is on the way. -/
def Avoids (I : Location → Prop) (fs : FileSystem) (cwd : Location) (p : Path) : Prop := ∀ x ∈ fs.wayTo cwd p, ¬ I x

instance [DecidablePred I] (fs : FileSystem) (cwd : Location) (p : Path) : Decidable (Avoids I fs cwd p) :=
  inferInstanceAs (Decidable (∀ x ∈ fs.wayTo cwd p, ¬ I x))

theorem mem_way_self : cur ∈ fs.way (n + 1) cur l := by
  cases l with
  | nil => exact List.mem_singleton.2 rfl
  | cons s l => exact List.mem_cons_self

theorem way_filler (h : fs.at? cur = some .directory) (hs : s = "" ∨ s = ".") :
    fs.way (n + 1) cur (s :: rest) = cur :: fs.way (n + 1) cur rest := by
  rw [way, wayWith]
  simp [h, hs]

theorem way_up (h : fs.at? cur = some .directory) :
    fs.way (n + 1) cur (".." :: rest) = cur :: fs.way (n + 1) cur.dropLast rest := by
  rw [way, wayWith]
  simp [h]

theorem way_stop (h : fs.at? cur ≠ some .directory) : fs.way (n + 1) cur (s :: rest) = [cur] := by
  rw [way, wayWith]
  split
  · next hd => exact absurd hd h
  · rfl

theorem way_vacant (h : fs.at? cur = some .directory) (hs : IsStep s) (hn : fs.at? (cur ++ [s]) = none) :
    fs.way (n + 1) cur (s :: rest) = [cur, cur ++ [s]] := by
  rw [way, wayWith]
  simp [h, hs.1, hs.2.1, hs.2.2, hn]

theorem way_link {target : String} (h : fs.at? cur = some .directory) (hs : IsStep s)
    (hn : fs.at? (cur ++ [s]) = some (.link target)) : fs.way (n + 1) cur (s :: rest) =
      cur :: (cur ++ [s]) :: fs.way n (startOf cur target.toList) (targetSteps target.toList rest) := by
  rw [way, wayWith]
  simp [h, hs.1, hs.2.1, hs.2.2, hn]

theorem way_enter (h : fs.at? cur = some .directory) (hs : IsStep s) (hn : fs.at? (cur ++ [s]) = some node)
    (hlink : ∀ target, node ≠ .link target) :
    fs.way (n + 1) cur (s :: rest) = cur :: (cur ++ [s]) :: fs.way (n + 1) (cur ++ [s]) rest := by
  rw [way, wayWith]
  cases node with
  | link target => exact absurd rfl (hlink target)
  | file bytes => simp [h, hs.1, hs.2.1, hs.2.2, hn]
  | directory => simp [h, hs.1, hs.2.1, hs.2.2, hn]

/-- One step of a walk, by what it comes to. -/
inductive StepCase (fs : FileSystem) (cur : Location) (s : String) : Prop
  | stop (h : fs.at? cur ≠ some .directory)
  | filler (h : fs.at? cur = some .directory) (hs : s = "" ∨ s = ".")
  | up (h : fs.at? cur = some .directory) (hs : s = "..")
  | vacant (h : fs.at? cur = some .directory) (hs : IsStep s) (hn : fs.at? (cur ++ [s]) = none)
  | link (target : String) (h : fs.at? cur = some .directory) (hs : IsStep s)
      (hn : fs.at? (cur ++ [s]) = some (.link target))
  | enter (node : FileNode) (h : fs.at? cur = some .directory) (hs : IsStep s)
      (hn : fs.at? (cur ++ [s]) = some node) (hlink : ∀ target, node ≠ .link target)

theorem stepCase (fs : FileSystem) (cur : Location) (s : String) : StepCase fs cur s := by
  by_cases h : fs.at? cur = some .directory
  · by_cases hs : s = "" ∨ s = "."
    · exact .filler h hs
    by_cases hup : s = ".."
    · exact .up h hup
    have hstep : IsStep s := ⟨fun he => hs (.inl he), fun he => hs (.inr he), hup⟩
    cases hn : fs.at? (cur ++ [s]) with
    | none => exact .vacant h hstep hn
    | some node =>
        cases node with
        | link target => exact .link target h hstep hn
        | file bytes => exact .enter _ h hstep hn nofun
        | directory => exact .enter _ h hstep hn nofun
  · exact .stop h

/-- Where all places on the way are the same, a walk ends the same. -/
theorem walk_congr (h : ∀ x ∈ fs.way n cur l, fs'.at? x = fs.at? x) :
    fs'.walk follow n cur l = fs.walk follow n cur l := by
  induction n generalizing cur l with
  | zero => rfl
  | succ n ihn =>
      induction l generalizing cur with
      | nil =>
          have hcur := h cur mem_way_self
          simp only [walk_succ, walkWith, hcur]
      | cons s rest ih =>
          have hcur := h cur mem_way_self
          rw [walk_succ, walk_succ, walkWith, walkWith, hcur]
          rcases stepCase fs cur s with hd | ⟨hd, hs⟩ | ⟨hd, rfl⟩ | ⟨hd, hs, hn⟩ | ⟨target, hd, hs, hn⟩ |
            ⟨node, hd, hs, hn, hlink⟩
          · split
            · next hc => exact absurd hc hd
            · rfl
            · rfl
          · rw [way_filler hd hs] at h
            simp only [hd, hs, decide_eq_true_eq, Bool.or_eq_true, if_true]
            exact ih fun x hx => h x (List.mem_cons_of_mem _ hx)
          · rw [way_up hd] at h
            simp only [hd]
            exact ih fun x hx => h x (List.mem_cons_of_mem _ hx)
          · rw [way_vacant hd hs hn] at h
            simp [hd, hs.1, hs.2.1, hs.2.2, hn, h (cur ++ [s])]
          · rw [way_link hd hs hn] at h
            have hjump := ihn fun x hx => h x (List.mem_cons_of_mem _ (List.mem_cons_of_mem _ hx))
            simp [hd, hs.1, hs.2.1, hs.2.2, hn, h (cur ++ [s]), hjump]
          · rw [way_enter hd hs hn hlink] at h
            have hinner := ih fun x hx => h x (List.mem_cons_of_mem _ (List.mem_cons_of_mem _ hx))
            rw [walk_succ, walk_succ] at hinner
            rw [h (cur ++ [s]) (by simp), hn]
            cases node with
            | link target => exact absurd rfl (hlink target)
            | file bytes => simp [hd, hs.1, hs.2.1, hs.2.2, hinner]
            | directory => simp [hd, hs.1, hs.2.1, hs.2.2, hinner]

theorem resolve_congr (hsame : SameOff I fs fs') (h : Avoids I fs cwd p) :
    fs'.resolve cwd follow p = fs.resolve cwd follow p := by
  rw [resolve, resolve]
  split
  · rfl
  · exact walk_congr fun x hx => hsame x (h x hx)

theorem found_congr (hsame : SameOff I fs fs') (h : Avoids I fs cwd p) : fs'.found cwd p = fs.found cwd p := by
  rw [found, found, resolve_congr hsame h]

theorem readText_congr (hsame : SameOff I fs fs') (h : Avoids I fs cwd p) : fs'.readText cwd p = fs.readText cwd p := by
  rw [readText, readText, readFile, readFile, found_congr hsame h]

theorem wayTo_of_open (hp : p.Spells l) (ho : p.IsOpen) : fs.wayTo cwd p = fs.way (maxLinks + 1) [] l := by
  obtain ⟨r, hr⟩ := hp.absolute
  have hne : p.text ≠ "" := by
    rw [ne_eq, ← String.toList_inj, hr]
    simp
  rw [wayTo, steps_of_isOpen ho hne, hp.stretches, startOf, hr]
  rfl

theorem locate_congr (hsame : SameOff I fs fs') (hp : p.Spells l) (h : ∀ x ∈ fs.way (maxLinks + 1) [] l, ¬ I x) :
    fs'.locate cwd p = fs.locate cwd p := by
  rw [hp.locate_eq, hp.locate_eq]
  exact walk_congr fun x hx => hsame x (h x hx)

theorem reaches_congr (hsame : SameOff I fs fs') (h : ∀ x ∈ fs.way (maxLinks + 1) [] l, ¬ I x) :
    fs'.Reaches l loc ↔ fs.Reaches l loc := by
  have hwalk : fs'.walk true (maxLinks + 1) [] l = fs.walk true (maxLinks + 1) [] l :=
    walk_congr fun x hx => hsame x (h x hx)
  exact ⟨fun hr => .of_walk (hwalk.symm.trans hr.walk_eq), fun hr => .of_walk (hwalk.trans hr.walk_eq)⟩

/-- More stretches make the way longer. -/
theorem way_append (hr : r ≠ []) (h : x ∈ fs.way n cur l) : x ∈ fs.way n cur (l.filter (· ≠ "") ++ r) := by
  induction n generalizing cur l with
  | zero => cases h
  | succ n ihn =>
      induction l generalizing cur with
      | nil =>
          cases List.mem_singleton.1 h
          exact mem_way_self
      | cons s rest ih =>
          by_cases hempty : s = ""
          · rw [List.filter_cons_of_neg (by simpa using hempty)]
            by_cases hd : fs.at? cur = some .directory
            · rw [way_filler hd (.inl hempty)] at h
              rcases List.mem_cons.1 h with rfl | h
              · exact mem_way_self
              · exact ih h
            · rw [way_stop hd] at h
              cases List.mem_singleton.1 h
              exact mem_way_self
          rw [List.filter_cons_of_pos (by simpa using hempty), List.cons_append]
          rcases stepCase fs cur s with hd | ⟨hd, hs⟩ | ⟨hd, rfl⟩ | ⟨hd, hs, hn⟩ | ⟨target, hd, hs, hn⟩ |
            ⟨node, hd, hs, hn, hlink⟩
          · rwa [way_stop hd] at h ⊢
          · rw [way_filler hd hs, List.mem_cons] at h ⊢
            exact h.imp_right ih
          · rw [way_up hd, List.mem_cons] at h ⊢
            exact h.imp_right ih
          · rwa [way_vacant hd hs hn] at h ⊢
          · have hne : rest.filter (· ≠ "") ++ r ≠ [] := List.append_ne_nil_of_right_ne_nil _ hr
            have hsteps : targetSteps target.toList (rest.filter (· ≠ "") ++ r) =
                (targetSteps target.toList rest).filter (· ≠ "") ++ r := by
              rw [filter_targetSteps, targetSteps, if_neg (by simpa using hne), List.append_assoc]
            rw [way_link hd hs hn, List.mem_cons, List.mem_cons] at h ⊢
            rw [hsteps]
            exact h.imp_right (.imp_right ihn)
          · rw [way_enter hd hs hn hlink, List.mem_cons, List.mem_cons] at h ⊢
            exact h.imp_right (.imp_right ih)

/-- The way to a path goes along the stretches of it, and may go on. -/
theorem mem_wayTo_of_spells (hp : p.Spells l) (h : x ∈ fs.way (maxLinks + 1) [] l) : x ∈ fs.wayTo cwd p := by
  obtain ⟨t, ht⟩ := hp.absolute
  have hstart : startOf cwd p.text.toList = [] := by simp [startOf, ht]
  rw [wayTo, hstart, steps_eq, hp.stretches]
  split
  · have hlong := way_append (List.cons_ne_nil "" []) h
    rwa [← hp.stretches, filter_stretches, hp.stretches] at hlong
  · exact h

/-- In a tree that has grown, a way goes at least as far. -/
theorem Grows.way (hg : fs.Grows fs') (h : x ∈ fs.way n cur l) : x ∈ fs'.way n cur l := by
  induction n generalizing cur l with
  | zero => cases h
  | succ n ihn =>
      induction l generalizing cur with
      | nil => exact h
      | cons s rest ih =>
          rcases stepCase fs cur s with hd | ⟨hd, hs⟩ | ⟨hd, rfl⟩ | ⟨hd, hs, hn⟩ | ⟨target, hd, hs, hn⟩ |
            ⟨node, hd, hs, hn, hlink⟩
          · rw [way_stop hd] at h
            cases List.mem_singleton.1 h
            exact mem_way_self
          · rw [way_filler hd hs, List.mem_cons] at h
            rw [way_filler (hg.at?_eq hd) hs, List.mem_cons]
            exact h.imp_right ih
          · rw [way_up hd, List.mem_cons] at h
            rw [way_up (hg.at?_eq hd), List.mem_cons]
            exact h.imp_right ih
          · rw [way_vacant hd hs hn] at h
            have hd' := hg.at?_eq hd
            rcases hg (cur ++ [s]) with he | ⟨-, he⟩
            · rwa [way_vacant hd' hs (he.trans hn)]
            · rw [way_enter hd' hs he nofun]
              rcases List.mem_cons.1 h with rfl | h
              · exact List.mem_cons_self
              · cases List.mem_singleton.1 h
                exact List.mem_cons_of_mem _ List.mem_cons_self
          · rw [way_link hd hs hn, List.mem_cons, List.mem_cons] at h
            rw [way_link (hg.at?_eq hd) hs (hg.at?_eq hn), List.mem_cons, List.mem_cons]
            exact h.imp_right (.imp_right ihn)
          · rw [way_enter hd hs hn hlink, List.mem_cons, List.mem_cons] at h
            rw [way_enter (hg.at?_eq hd) hs (hg.at?_eq hn) hlink, List.mem_cons, List.mem_cons]
            exact h.imp_right (.imp_right ih)

theorem Leads.mem_way (h : fs.Leads true n cur l (.found loc node)) : loc ∈ fs.way n cur l := by
  generalize hp : Place.found loc node = p at h
  induction h with
  | stop => cases hp; exact mem_way_self
  | skip h hs _ ih => rw [way_filler h hs]; exact List.mem_cons_of_mem _ (ih hp)
  | up h _ ih => rw [way_up h]; exact List.mem_cons_of_mem _ (ih hp)
  | vacant | slashed => cases hp
  | stay _ _ _ hf => cases hf
  | jump h hs hn _ _ ih =>
      rw [way_link h hs hn]
      exact List.mem_cons_of_mem _ (List.mem_cons_of_mem _ (ih hp))
  | enter h hs hn hlink _ ih =>
      rw [way_enter h hs hn hlink]
      exact List.mem_cons_of_mem _ (List.mem_cons_of_mem _ (ih hp))

theorem mem_wayTo_of_found (h : fs.found cwd p = .ok (loc, node)) : loc ∈ fs.wayTo cwd p := by
  have hr := found_eq_ok.1 h
  rw [resolve] at hr
  split at hr
  · cases hr
  · exact (Leads.of_walk hr).mem_way

/-- The way through a directory goes on to what is looked up in it. -/
theorem Leads.way_append (h : fs.Leads true n cur l (.found loc .directory)) (hs : IsStep s) :
    loc ++ [s] ∈ fs.way n cur (l.filter (· ≠ "") ++ [s]) := by
  generalize hp : Place.found loc .directory = p at h
  induction h with
  | stop h =>
      cases hp
      rw [List.filter_nil, List.nil_append]
      rcases stepCase fs loc s with hd | ⟨-, hf⟩ | ⟨-, rfl⟩ | ⟨hd, hs, hn⟩ | ⟨target, hd, hs, hn⟩ |
        ⟨node, hd, hs, hn, hlink⟩
      · exact absurd h hd
      · exact absurd hf fun hf => hf.elim hs.1 hs.2.1
      · exact absurd rfl hs.2.2
      · simp [way_vacant hd hs hn]
      · simp [way_link hd hs hn]
      · simp [way_enter hd hs hn hlink]
  | @skip n cur t l p h ht hl ih =>
      by_cases hempty : t = ""
      · rw [List.filter_cons_of_neg (by simpa using hempty)]
        exact ih hp
      · rw [List.filter_cons_of_pos (by simpa using hempty), List.cons_append, way_filler h ht]
        exact List.mem_cons_of_mem _ (ih hp)
  | @up n cur l p h hl ih =>
      rw [List.filter_cons_of_pos (by simp), List.cons_append, way_up h]
      exact List.mem_cons_of_mem _ (ih hp)
  | vacant | slashed => cases hp
  | stay _ _ _ hf => cases hf
  | @jump n cur t target l p h ht hn hf hl ih =>
      rw [List.filter_cons_of_pos (by simpa using ht.1), List.cons_append, way_link h ht hn]
      have hin := ih hp
      rw [filter_targetSteps] at hin
      have hsteps : targetSteps target.toList (l.filter (· ≠ "") ++ [s]) =
          (FileSystem.steps target.toList).filter (· ≠ "") ++ l.filter (· ≠ "") ++ [s] := by
        rw [targetSteps, if_neg (by simp), List.append_assoc]
      rw [hsteps]
      exact List.mem_cons_of_mem _ (List.mem_cons_of_mem _ hin)
  | @enter n cur t node l p h ht hn hlink hl ih =>
      rw [List.filter_cons_of_pos (by simpa using ht.1), List.cons_append, way_enter h ht hn hlink]
      exact List.mem_cons_of_mem _ (List.mem_cons_of_mem _ (ih hp))

theorem LeadsTo.mem_wayTo_child (h : fs.LeadsTo cwd p loc) (hs : IsName s) : loc ++ [s] ∈ fs.wayTo cwd (p.child s) := by
  have hmem := h.2.way_append hs.isStep
  rw [filter_stretches] at hmem
  rwa [wayTo, h.startOf_child hs, steps_of_isOpen (isOpen_child hs h.1) (child_ne_empty hs h.1), stretches_child hs h.1]

/-- A way without links goes straight down. -/
theorem way_names (hlink : ∀ y ∈ fs.way n cur l, ∀ target, y <+: cur ++ l.filter (· ≠ "") → fs.at? y ≠ some (.link target))
    (hl : ∀ s ∈ l, s = "" ∨ IsStep s) (h : x ∈ fs.way n cur l) : x <+: cur ++ l.filter (· ≠ "") := by
  cases n with
  | zero => cases h
  | succ n =>
      induction l generalizing cur with
      | nil =>
          cases List.mem_singleton.1 h
          exact List.prefix_append _ _
      | cons s rest ih =>
          have htail : ∀ t ∈ rest, t = "" ∨ IsStep t := fun t ht => hl t (List.mem_cons_of_mem s ht)
          rcases stepCase fs cur s with hd | ⟨hd, hs⟩ | ⟨hd, rfl⟩ | ⟨hd, hs, hn⟩ | ⟨target, hd, hs, hn⟩ |
            ⟨node, hd, hs, hn, hnode⟩
          · rw [way_stop hd] at h
            cases List.mem_singleton.1 h
            exact List.prefix_append _ _
          · obtain rfl : s = "" := (hl s (by simp)).resolve_right fun hc => hs.elim hc.1 hc.2.1
            rw [List.filter_cons_of_neg (by simp)] at hlink ⊢
            rw [way_filler hd hs] at h hlink
            rcases List.mem_cons.1 h with rfl | h
            · exact List.prefix_append _ _
            · exact ih htail (fun y hy => hlink y (List.mem_cons_of_mem _ hy)) h
          · exact absurd rfl ((hl ".." (by simp)).resolve_left (by decide)).2.2
          · rw [List.filter_cons_of_pos (by simpa using hs.1)]
            rw [way_vacant hd hs hn] at h
            rcases List.mem_cons.1 h with rfl | h
            · exact List.prefix_append _ _
            · cases List.mem_singleton.1 h
              simp
          · refine absurd hn (hlink _ (by simp [way_link hd hs hn]) target ?_)
            rw [List.filter_cons_of_pos (by simpa using hs.1)]
            simp
          · rw [List.filter_cons_of_pos (by simpa using hs.1)] at hlink ⊢
            rw [way_enter hd hs hn hnode] at h hlink
            rcases List.mem_cons.1 h with rfl | h
            · exact List.prefix_append _ _
            rcases List.mem_cons.1 h with rfl | h
            · simp
            · have hin := ih htail (fun y hy => by simpa using hlink y (by simp [hy])) h
              simpa using hin

end SiteTree.FileSystem
