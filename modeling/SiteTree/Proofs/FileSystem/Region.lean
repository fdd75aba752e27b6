import SiteTree.Proofs.Path.Absolute

/-!
Parts of a tree without links: there a path leads where its stretches say. A region is a directory
that a list of stretches leads to, with no link below it.
-/

namespace SiteTree.FileSystem

open SiteTree.Path Text

variable {fs : FileSystem} {follow : Bool} {n : Nat} {cur loc parent root x : Location}
  {l r rest names : List String} {s name target : String} {node : FileNode} {p : Place}

/-- No link stands at or below a location. -/
def LinkFree (fs : FileSystem) (root : Location) : Prop :=
  ∀ x target, root <+: x → fs.at? x ≠ some (.link target)

theorem linkFree_iff : fs.LinkFree root ↔
    ∀ e ∈ fs.entries, root <+: e.1 → (fs.at? e.1).any FileNode.isLink = false := by
  have hlink : ∀ x, (fs.at? x).any FileNode.isLink = false ↔ ∀ target, fs.at? x ≠ some (.link target) := by
    intro x
    rcases fs.at? x with _ | (_ | _ | _) <;> simp [FileNode.isLink]
  constructor
  · intro h e _ hx
    exact (hlink _).2 fun target => h _ target hx
  · intro h x target hx ht
    by_cases hne : x = []
    · subst hne
      cases ht
    · obtain ⟨e, he, rfl⟩ := mem_of_at?_isSome hne (by rw [ht]; rfl)
      exact (hlink _).1 (h e he hx) target ht

instance (fs : FileSystem) (root : Location) : Decidable (fs.LinkFree root) :=
    decidable_of_iff' _ linkFree_iff

theorem LinkFree.below (h : fs.LinkFree root) (hx : root <+: x) : fs.LinkFree x :=
  fun y target hy => h y target (hx.trans hy)

/-- Where stretches lead if nothing on the way is a link. -/
def settle : Location → List String → Location
  | cur, [] => cur
  | cur, s :: rest =>
    if s = "" ∨ s = "." then settle cur rest
    else if s = ".." then settle cur.dropLast rest
    else settle (cur ++ [s]) rest

theorem settle_append (cur : Location) (l r : List String) :
    settle cur (l ++ r) = settle (settle cur l) r := by
  induction l generalizing cur with
  | nil => rfl
  | cons s l ih =>
      rw [List.cons_append, settle, settle]
      split
      · exact ih _
      · split <;> exact ih _

theorem settle_step (hs : IsStep s) (cur : Location) (l : List String) :
    settle cur (s :: l) = settle (cur ++ [s]) l := by
  rw [settle, if_neg (not_or.2 ⟨hs.1, hs.2.1⟩), if_neg hs.2.2]

theorem settle_empty (cur : Location) (l : List String) : settle cur (l ++ [""]) = settle cur l := by
  rw [settle_append]
  rfl

theorem settle_names {names : List String} (h : ∀ s ∈ names, IsName s) (cur : Location) :
    settle cur names = cur ++ names := by
  induction names generalizing cur with
  | nil => simp [settle]
  | cons s names ih =>
      rw [settle_step (h s (by simp)).isStep, ih fun t ht => h t (List.mem_cons_of_mem s ht), List.append_assoc]
      rfl

theorem Leads.location_settle (h : fs.Leads follow n cur l p) (hfree : fs.LinkFree []) :
    p.location = settle cur l := by
  induction h with
  | stop => rfl
  | skip _ hs _ ih => rw [settle, if_pos hs, ih]
  | up _ _ ih => rw [ih]; rfl
  | vacant _ hs => rw [settle_step hs]; rfl
  | slashed _ hs => rw [settle_step hs]; rfl
  | stay _ _ hn | jump _ _ hn => exact absurd hn (hfree _ _ List.nil_prefix)
  | enter _ hs _ _ _ ih => rw [settle_step hs, ih]

/-- Names lead straight down where no link is on the way. -/
theorem Leads.location_names (h : fs.Leads follow n cur names p)
    (hlink : ∀ y target, cur <+: y → y <+: cur ++ names → fs.at? y ≠ some (.link target))
    (hn : ∀ s ∈ names, IsStep s) : p.location = cur ++ names := by
  induction h with
  | stop => simp [Place.location]
  | skip _ hs => exact absurd (hn _ (by simp)) fun h => hs.elim h.1 h.2.1
  | up => exact absurd rfl (hn ".." (by simp)).2.2
  | vacant => rfl
  | slashed => exact absurd rfl (hn "" (by simp)).1
  | stay _ _ hl | jump _ _ hl => exact absurd hl (hlink _ _ (List.prefix_append _ _) (by simp))
  | enter _ _ _ _ _ ih =>
      have hinner := ih (fun y target hy hyl => hlink y target ((List.prefix_append _ _).trans hy) (by simpa using hyl))
        fun t ht => hn t (List.mem_cons_of_mem _ ht)
      rw [hinner, List.append_assoc]
      rfl

theorem Leads.followed (h : fs.Leads false n cur l (.found loc .directory)) :
    fs.Leads true n cur l (.found loc .directory) := by
  generalize hp : Place.found loc .directory = p at h
  induction h with
  | stop h => exact .stop h
  | skip h hs _ ih => exact .skip h hs (ih hp)
  | up h _ ih => exact .up h (ih hp)
  | vacant | slashed | stay => cases hp
  | jump h hs hn _ _ ih => exact .jump h hs hn (.inr rfl) (ih hp)
  | enter h hs hn hlink _ ih => exact .enter h hs hn hlink (ih hp)

theorem Leads.unfollowed (h : fs.Leads follow n cur l p) (hfree : fs.LinkFree []) {follow' : Bool} :
    fs.Leads follow' n cur l p := by
  induction h with
  | stop h => exact .stop h
  | skip h hs _ ih => exact .skip h hs ih
  | up h _ ih => exact .up h ih
  | vacant h hs hn => exact .vacant h hs hn
  | slashed h hs hn => exact .slashed h hs hn
  | stay _ _ hn | jump _ _ hn => exact absurd hn (hfree _ _ List.nil_prefix)
  | enter h hs hn hlink _ ih => exact .enter h hs hn hlink ih

/-- The name of a vacancy has no slash if no stretch has one: targets of links have none. -/
theorem Leads.isName {slashed : Bool} (h : fs.Leads follow n cur l (.vacant parent name slashed))
    (hl : ∀ s ∈ l, '/' ∉ s.toList) : IsName name := by
  generalize hp : Place.vacant parent name slashed = p at h
  have htail : ∀ {s : String} {rest : List String}, (∀ t ∈ s :: rest, '/' ∉ t.toList) →
      ∀ t ∈ rest, '/' ∉ t.toList := fun h t ht => h t (List.mem_cons_of_mem _ ht)
  induction h with
  | stop | stay => cases hp
  | skip _ _ _ ih | up _ _ ih | enter _ _ _ _ _ ih => exact ih (htail hl) hp
  | vacant _ hs | slashed _ hs => cases hp; exact ⟨hs.1, hs.2.1, hs.2.2, hl _ (by simp)⟩
  | @jump _ _ _ target rest _ _ _ _ _ _ ih =>
      refine ih (fun t ht => ?_) hp
      rw [targetSteps] at ht
      split at ht
      · exact not_slash_of_mem_steps ht
      · rcases List.mem_append.1 ht with ht | ht
        · exact not_slash_of_mem_steps (List.mem_filter.1 ht).1
        · exact htail hl t ht

theorem Leads.closed (h : fs.Leads true n cur (l.filter (· ≠ "")) (.found loc .directory)) :
    fs.Leads true n cur (l.filter (· ≠ "") ++ [""]) (.found loc .directory) := by
  obtain ⟨m, hm⟩ := h.walk_append true (List.cons_ne_nil "" [])
  simp only [List.filter_filter, Bool.and_self] at hm
  refine .of_walk (hm.trans (Leads.walk_eq ?_))
  exact .skip h.at?_found (.inl rfl) (.stop h.at?_found)

theorem Leads.steps {t : List Char}
    (h : fs.Leads true n cur ((FileSystem.steps t).filter (· ≠ "")) (.found loc .directory)) :
    fs.Leads true n cur (FileSystem.steps t) (.found loc .directory) := by
  have hc := h.closed
  rw [filter_steps] at h hc
  rw [steps_eq]
  split
  · exact hc
  · exact h

theorem Leads.walk_split (h : fs.Leads follow n cur (l ++ s :: r) p)
    (hs : s ≠ "" ∨ ∃ loc node, p = .found loc node) :
    ∃ loc, fs.Leads true n cur l (.found loc .directory) := by
  generalize hk : l ++ s :: r = k at h
  induction h generalizing l with
  | stop => simp at hk
  | skip h hd _ ih =>
      rcases List.append_eq_cons_iff.1 hk with ⟨rfl, -⟩ | ⟨l, rfl, hr⟩
      · exact ⟨_, .stop h⟩
      · obtain ⟨loc, hl⟩ := ih hs hr.symm
        exact ⟨loc, .skip h hd hl⟩
  | up h _ ih =>
      rcases List.append_eq_cons_iff.1 hk with ⟨rfl, -⟩ | ⟨l, rfl, hr⟩
      · exact ⟨_, .stop h⟩
      · obtain ⟨loc, hl⟩ := ih hs hr.symm
        exact ⟨loc, .up h hl⟩
  | vacant h | stay h =>
      rcases List.append_eq_cons_iff.1 hk with ⟨rfl, -⟩ | ⟨l, rfl, hr⟩
      · exact ⟨_, .stop h⟩
      · simp at hr
  | slashed h =>
      rcases List.append_eq_cons_iff.1 hk with ⟨rfl, -⟩ | ⟨l, rfl, hr⟩
      · exact ⟨_, .stop h⟩
      · obtain ⟨-, hs', -⟩ : l = [] ∧ s = "" ∧ r = [] := by
          rcases List.append_eq_cons_iff.1 hr.symm with ⟨rfl, he⟩ | ⟨l, rfl, he⟩
          · simpa using he
          · simp at he
        obtain ⟨_, _, he⟩ := hs.resolve_left (by simpa using hs')
        cases he
  | @jump _ _ a target _ _ h ha hn _ _ ih =>
      rcases List.append_eq_cons_iff.1 hk with ⟨rfl, -⟩ | ⟨l, rfl, hr⟩
      · exact ⟨_, .stop h⟩
      · subst hr
        obtain ⟨loc, hl⟩ :=
          @ih ((FileSystem.steps target.toList).filter (· ≠ "") ++ l) hs (by simp [targetSteps])
        refine ⟨loc, .jump h ha hn (.inr rfl) ?_⟩
        cases l with
        | nil => exact Leads.steps (by simpa using hl)
        | cons b l => exact hl
  | enter h ha hn hlink _ ih =>
      rcases List.append_eq_cons_iff.1 hk with ⟨rfl, -⟩ | ⟨l, rfl, hr⟩
      · exact ⟨_, .stop h⟩
      · obtain ⟨loc, hl⟩ := ih hs hr.symm
        exact ⟨loc, .enter h ha hn hlink hl⟩

/-- If the stretches lead somewhere, they lead there or to a link at the end if that is not followed. -/
theorem Leads.exists_unfollowed (h : fs.Leads follow n cur l place) :
    ∃ q, fs.Leads false n cur l q ∧ (q = place ∨ ∃ loc target, q = .found loc (.link target)) := by
  induction h with
  | stop h => exact ⟨_, .stop h, .inl rfl⟩
  | skip h hs _ ih =>
      obtain ⟨q, hq, hplace⟩ := ih
      exact ⟨q, .skip h hs hq, hplace⟩
  | up h _ ih =>
      obtain ⟨q, hq, hplace⟩ := ih
      exact ⟨q, .up h hq, hplace⟩
  | vacant h hs hn => exact ⟨_, .vacant h hs hn, .inl rfl⟩
  | slashed h hs hn => exact ⟨_, .slashed h hs hn, .inl rfl⟩
  | stay h hs hn => exact ⟨_, .stay h hs hn rfl, .inl rfl⟩
  | @jump n cur s target rest p h hs hn hf _ ih =>
      by_cases hr : rest = []
      · subst hr
        exact ⟨.found (cur ++ [s]) (.link target), .stay h hs hn rfl, .inr ⟨_, _, rfl⟩⟩
      · obtain ⟨q, hq, hplace⟩ := ih
        exact ⟨q, .jump h hs hn (.inl hr) hq, hplace⟩
  | enter h hs hn hlink _ ih =>
      obtain ⟨q, hq, hplace⟩ := ih
      exact ⟨q, .enter h hs hn hlink hq, hplace⟩

end SiteTree.FileSystem
