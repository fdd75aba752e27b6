import SiteTree.Proofs.Action

/-!
Two runs side by side: rules by which actions that are made of like parts end alike.
-/

namespace SiteTree

/-- Answers that are related, or errors that are. -/
inductive Likewise {ε ε' α β : Type} (E : ε → ε' → Prop) (V : α → β → Prop) : Except ε α → Except ε' β → Prop
  | ok {a : α} {b : β} (h : V a b) : Likewise E V (.ok a) (.ok b)
  | error {e : ε} {e' : ε'} (h : E e e') : Likewise E V (.error e) (.error e')

theorem Likewise.of_eq {ε α : Type} {r r' : Except ε α} (h : r' = r) : Likewise Eq Eq r r' := by
  subst h
  cases r' with
  | ok v => exact .ok rfl
  | error e => exact .error rfl

theorem Likewise.bind {ε ε' α β α' β' : Type} {E : ε → ε' → Prop} {V : α → β → Prop} {U : α' → β' → Prop}
    {a : Except ε α} {b : Except ε' β} {f : α → Except ε α'} {g : β → Except ε' β'} (h : Likewise E V a b)
    (hf : ∀ a b, V a b → Likewise E U (f a) (g b)) : Likewise E U (a >>= f) (b >>= g) := by
  cases h with
  | ok h => exact hf _ _ h
  | error he => exact .error he

theorem Likewise.eq_error_iff {ε α β : Type} {V : α → β → Prop} {a : Except ε α} {b : Except ε β} (h : Likewise Eq V a b)
    (e : ε) : b = .error e ↔ a = .error e := by
  cases h with
  | ok h => simp
  | error he => rw [Except.error.injEq, Except.error.injEq, he]

/-- What is found in place of a directory that cannot be made decides the rest. -/
theorem Likewise.makeLevel {V : FileSystem → FileSystem → Prop} {fs fs' : FileSystem} {cwd cwd' : Location} {p p' : Path}
    (h : Likewise Eq V (fs.makeDirectory cwd p) (fs'.makeDirectory cwd' p'))
    (hd : fs'.isDirectory cwd' p' = fs.isDirectory cwd p) (hV : V fs fs') :
    Likewise (fun e e' => e.1 = e'.1) V (FileSystem.makeLevel cwd p fs) (FileSystem.makeLevel cwd' p' fs') := by
  rw [FileSystem.makeLevel, FileSystem.makeLevel]
  generalize fs.makeDirectory cwd p = made at h ⊢
  generalize fs'.makeDirectory cwd' p' = made' at h ⊢
  cases h with
  | ok h => exact .ok h
  | error he =>
      dsimp only
      rw [hd]
      split
      · exact .ok hV
      · exact .error he

namespace Action

variable {α α' β β' γ : Type} {P : Prop} {T : World → World → Prop} {V : α → α' → Prop} {U : β → β' → Prop}
  {w w' : World}

/-- Both runs succeed, with results that are related and in worlds that are, or both fail. If it is asked for,
they fail for the same reason. -/
inductive EndAlike (P : Prop) (T : World → World → Prop) (V : α → α' → Prop) :
    EStateM.Result Failure World α → EStateM.Result Failure World α' → Prop
  | ok {v : α} {v' : α'} {w w' : World} (hv : V v v') (hw : T w w') : EndAlike P T V (.ok v w) (.ok v' w')
  | error {e e' : Failure} {w w' : World} (he : P → e = e') : EndAlike P T V (.error e w) (.error e' w')

theorem EndAlike.mono {T' : World → World → Prop} {V' : α → α' → Prop} {a : Action α} {a' : Action α'}
    (h : EndAlike P T V (a w) (a' w')) (hr : ∀ v v' w₁ w₁', a w = .ok v w₁ → a' w' = .ok v' w₁' → V v v' → T w₁ w₁' →
      V' v v' ∧ T' w₁ w₁') : EndAlike P T' V' (a w) (a' w') := by
  generalize ha : a w = r at h
  generalize ha' : a' w' = r' at h
  cases h with
  | error he => exact .error he
  | ok hv hw =>
      obtain ⟨hv', hw'⟩ := hr _ _ _ _ ha ha' hv hw
      exact .ok hv' hw'

theorem EndAlike.refl (r : EStateM.Result Failure World α) (hT : ∀ w, T w w) : EndAlike P T Eq r r := by
  cases r with
  | ok v w => exact .ok rfl (hT w)
  | error e w => exact .error fun _ => rfl

/-- What one run succeeds with, the other one does. -/
theorem EndAlike.result {r r' : EStateM.Result Failure World α} {v : α} (h : EndAlike P T Eq r r') (hr : r = .ok v w) :
    ∃ w', r' = .ok v w' ∧ T w w' := by
  subst hr
  cases h with
  | ok hv hw =>
      subst hv
      exact ⟨_, rfl, hw⟩

theorem EndAlike.bind {T' : World → World → Prop} {a : Action α} {a' : Action α'} {f : α → Action β} {f' : α' → Action β'}
    (h : EndAlike P T V (a w) (a' w'))
    (hf : ∀ v v' w₁ w₁', a w = .ok v w₁ → a' w' = .ok v' w₁' → V v v' → T w₁ w₁' →
      EndAlike P T' U (f v w₁) (f' v' w₁')) : EndAlike P T' U ((a >>= f) w) ((a' >>= f') w') := by
  generalize ha : a w = r at h
  generalize ha' : a' w' = r' at h
  cases h with
  | error he =>
      rw [bind_error ha, bind_error ha']
      exact .error he
  | ok hv hw =>
      rw [bind_ok ha, bind_ok ha']
      exact hf _ _ _ _ ha ha' hv hw

theorem EndAlike.ofExcept {x : Except Failure α} (hw : T w w') :
    EndAlike P T Eq (ofExcept x w) (ofExcept x w') := by
  cases x with
  | ok v => exact .ok rfl hw
  | error e => exact .error fun _ => rfl

theorem look_alike {g : FileSystem → Location → Except Cause α} {g' : FileSystem → Location → Except Cause α'}
    {blame blame' : Cause → Failure} (h : Likewise Eq V (g w.files w.cwd) (g' w'.files w'.cwd)) (hb : P → blame = blame')
    (hw : T w w') : EndAlike P T V (look g blame w) (look g' blame' w') := by
  rw [look_eq, look_eq]
  generalize g w.files w.cwd = r at h ⊢
  generalize g' w'.files w'.cwd = r' at h ⊢
  cases h with
  | ok hV => exact .ok hV hw
  | error he => exact .error fun hP => by rw [hb hP, he]

theorem change_alike {R : FileSystem → FileSystem → Prop} {g g' : FileSystem → Location → Except Cause FileSystem}
    {blame blame' : Cause → Failure} (h : Likewise Eq R (g w.files w.cwd) (g' w'.files w'.cwd)) (hb : P → blame = blame')
    (hT : ∀ fs fs', R fs fs' → T { w with files := fs } { w' with files := fs' }) :
    EndAlike P T (fun _ _ => True) (change g blame w) (change g' blame' w') := by
  rw [change_eq, change_eq]
  generalize g w.files w.cwd = r at h ⊢
  generalize g' w'.files w'.cwd = r' at h ⊢
  cases h with
  | ok hR => exact .ok trivial (hT _ _ hR)
  | error he => exact .error fun hP => by rw [hb hP, he]

theorem changePart_alike {R : FileSystem → FileSystem → Prop}
    {g g' : FileSystem → Location → Except (Cause × FileSystem) FileSystem} {blame blame' : Cause → Failure}
    (h : Likewise (fun e e' => e.1 = e'.1) R (g w.files w.cwd) (g' w'.files w'.cwd)) (hb : P → blame = blame')
    (hT : ∀ fs fs', R fs fs' → T { w with files := fs } { w' with files := fs' }) :
    EndAlike P T (fun _ _ => True) (changePart g blame w) (changePart g' blame' w') := by
  rw [changePart_eq, changePart_eq]
  generalize g w.files w.cwd = r at h ⊢
  generalize g' w'.files w'.cwd = r' at h ⊢
  cases h with
  | ok hR => exact .ok trivial (hT _ _ hR)
  | @error e e' he =>
      obtain ⟨cause, fs⟩ := e
      obtain ⟨cause', fs'⟩ := e'
      exact .error fun hP => by rw [hb hP, show cause = cause' from he]

/-- The members of a list give the same one after another. -/
theorem mapM_alike {l : List β} {g g' : β → Action γ}
    (h : ∀ b ∈ l, ∀ w w', T w w' → EndAlike P T Eq (g b w) (g' b w')) (hw : T w w') :
    EndAlike P T Eq (l.mapM g w) (l.mapM g' w') := by
  induction l generalizing w w' with
  | nil => exact .ok rfl hw
  | cons b l ih =>
      rw [List.mapM_cons, List.mapM_cons]
      refine (h b (by simp) w w' hw).bind fun c c' w₁ w₁' _ _ hc hw₁ => ?_
      refine (ih (fun d hd => h d (List.mem_cons_of_mem b hd)) hw₁).bind fun cs cs' w₂ w₂' _ _ hcs hw₂ => ?_
      rw [hc, hcs]
      exact .ok rfl hw₂

/-- Two lists with the same members in the same order, but for such that each leaves out on its own. -/
inductive SameBut (S S' : β → Prop) : List β → List β → Prop
  | nil : SameBut S S' [] []
  | left {b : β} {l l' : List β} (hb : S b) (h : SameBut S S' l l') : SameBut S S' (b :: l) l'
  | right {b : β} {l l' : List β} (hb : S' b) (h : SameBut S S' l l') : SameBut S S' l (b :: l')
  | both {b : β} {l l' : List β} (hb : ¬ S b) (hb' : ¬ S' b) (h : SameBut S S' l l') :
      SameBut S S' (b :: l) (b :: l')

namespace SameBut

variable {S S' : β → Prop} {l l' : List β}

theorem refl (l : List β) : SameBut (fun _ => False) (fun _ => False) l l := by
  induction l with
  | nil => exact .nil
  | cons b l ih => exact .both id id ih

/-- Sorted lists are the same but for what each leaves out if they share all other members. -/
theorem of_sorted {l l' : List String} {S S' : String → Prop} (hl : l.Pairwise (· < ·)) (hl' : l'.Pairwise (· < ·))
    (hS : ∀ n, ¬ S n → n ∈ l → n ∈ l' ∧ ¬ S' n) (hS' : ∀ n, ¬ S' n → n ∈ l' → n ∈ l ∧ ¬ S n) : SameBut S S' l l' := by
  induction l generalizing l' with
  | nil =>
      induction l' with
      | nil => exact .nil
      | cons b' l' ih' =>
          have hb' : S' b' := by
            by_contra hc
            cases (hS' b' hc (by simp)).1
          exact .right hb' (ih' (List.pairwise_cons.1 hl').2 (fun n _ hn => nomatch hn)
            fun n hn hmem => hS' n hn (List.mem_cons_of_mem b' hmem))
  | cons b l ih =>
      obtain ⟨hb, hl⟩ := List.pairwise_cons.1 hl
      by_cases hSb : S b
      · refine .left hSb (ih hl hl' (fun n hn hmem => hS n hn (List.mem_cons_of_mem b hmem)) fun n hn hmem => ?_)
        obtain ⟨hin, hnS⟩ := hS' n hn hmem
        exact ⟨(List.mem_cons.1 hin).resolve_left fun he => hnS (he ▸ hSb), hnS⟩
      induction l' with
      | nil => cases (hS b hSb (by simp)).1
      | cons b' l' ih' =>
          obtain ⟨hb', htail⟩ := List.pairwise_cons.1 hl'
          by_cases hSb' : S' b'
          · refine .right hSb' (ih' htail (fun n hn hmem => ?_) fun n hn hmem => hS' n hn (List.mem_cons_of_mem b' hmem))
            obtain ⟨hin, hnS'⟩ := hS n hn hmem
            exact ⟨(List.mem_cons.1 hin).resolve_left fun he => hnS' (he ▸ hSb'), hnS'⟩
          -- Each of the two heads is in the other list, so neither comes before the other.
          obtain rfl : b = b' := by
            rcases List.mem_cons.1 (hS b hSb (by simp)).1 with he | hin
            · exact he
            rcases List.mem_cons.1 (hS' b' hSb' (by simp)).1 with he | hin'
            · exact he.symm
            exact absurd (String.lt_trans (hb' b hin) (hb b' hin')) (String.lt_irrefl b')
          refine .both hSb hSb' (ih hl htail (fun n hn hmem => ?_) fun n hn hmem => ?_)
          · obtain ⟨hin, hnS'⟩ := hS n hn (List.mem_cons_of_mem b hmem)
            refine ⟨(List.mem_cons.1 hin).resolve_left ?_, hnS'⟩
            rintro rfl
            exact String.lt_irrefl n (hb n hmem)
          · obtain ⟨hin, hnS⟩ := hS' n hn (List.mem_cons_of_mem b hmem)
            refine ⟨(List.mem_cons.1 hin).resolve_left ?_, hnS⟩
            rintro rfl
            exact String.lt_irrefl n (hb' n hmem)

end SameBut

/-- Members that are left out only tell something. Where the others end alike, so do both lists. -/
theorem SameBut.forM {S S' : β → Prop} {l l' : List β} {f f' : β → Action Unit} (h : SameBut S S' l l')
    (hS : ∀ b w, S b → ∃ events, f b w = .ok () { w with events := events })
    (hS' : ∀ b w, S' b → ∃ events, f' b w = .ok () { w with events := events })
    (hT : ∀ {w w' : World} events events', T w w' → T { w with events := events } { w' with events := events' })
    (hf : ∀ b w₁ w₁', ¬ S b → ¬ S' b → Comes f l w b w₁ → Comes f' l' w' b w₁' → T w₁ w₁' →
      EndAlike P T (fun _ _ => True) (f b w₁) (f' b w₁')) (hw : T w w') :
    EndAlike P T (fun _ _ => True) (l.forM f w) (l'.forM f' w') := by
  induction h generalizing w w' with
  | nil => exact .ok trivial hw
  | @left b l l' hb _ ih =>
      obtain ⟨events, hone⟩ := hS b w hb
      show EndAlike P T _ ((f b >>= fun _ => l.forM f) w) _
      rw [bind_ok hone]
      exact ih (fun c w₁ w₁' hc hc' hcome hcome' hw₁ => hf c w₁ w₁' hc hc' (hcome.cons hone) hcome' hw₁)
        (hT events w'.events hw)
  | @right b l l' hb _ ih =>
      obtain ⟨events, hone⟩ := hS' b w' hb
      show EndAlike P T _ _ ((f' b >>= fun _ => l'.forM f') w')
      rw [bind_ok hone]
      exact ih (fun c w₁ w₁' hc hc' hcome hcome' hw₁ => hf c w₁ w₁' hc hc' hcome (hcome'.cons hone) hw₁)
        (hT w.events events hw)
  | @both b l l' hb hb' _ ih =>
      refine (hf b w w' hb hb' ⟨[], l, rfl, rfl⟩ ⟨[], l', rfl, rfl⟩ hw).bind fun u u' w₁ w₁' hone hone' _ hw₁ => ?_
      exact ih (fun c w₂ w₂' hc hc' hcome hcome' hw₂ =>
        hf c w₂ w₂' hc hc' (hcome.cons hone) (hcome'.cons hone') hw₂) hw₁

/-- Members that change nothing, and that give the same or fail for the same reason if they are not left out. -/
theorem SameBut.mapM {S S' : β → Prop} {R R' : γ → Prop} {l l' : List β} {g g' : β → Action γ} (h : SameBut S S' l l')
    (hS : ∀ b ∈ l, S b → ∃ c, R c ∧ g b w = .ok c w) (hS' : ∀ b ∈ l', S' b → ∃ c, R' c ∧ g' b w' = .ok c w')
    (hg : ∀ b ∈ l, ¬ S b → ¬ S' b → (∃ c, ¬ R c ∧ ¬ R' c ∧ g b w = .ok c w ∧ g' b w' = .ok c w') ∨
      ∃ e, g b w = .error e w ∧ g' b w' = .error e w') (hw : T w w') :
    EndAlike P T (SameBut R R') (l.mapM g w) (l'.mapM g' w') := by
  induction h with
  | nil => exact .ok .nil hw
  | @left b l l' hb _ ih =>
      obtain ⟨c, hR, hone⟩ := hS b (by simp) hb
      have hrest := ih (fun d hd => hS d (List.mem_cons_of_mem b hd)) hS' fun d hd => hg d (List.mem_cons_of_mem b hd)
      rw [List.mapM_cons, bind_ok hone, ← bind_pure (l'.mapM g')]
      exact hrest.bind fun cs cs' w₁ w₁' _ _ hcs hw₁ => .ok (.left hR hcs) hw₁
  | @right b l l' hb _ ih =>
      obtain ⟨c, hR, hone⟩ := hS' b (by simp) hb
      have hrest := ih hS (fun d hd => hS' d (List.mem_cons_of_mem b hd)) hg
      rw [List.mapM_cons, bind_ok hone, ← bind_pure (l.mapM g)]
      exact hrest.bind fun cs cs' w₁ w₁' _ _ hcs hw₁ => .ok (.right hR hcs) hw₁
  | @both b l l' hb hb' _ ih =>
      have hrest := ih (fun d hd => hS d (List.mem_cons_of_mem b hd)) (fun d hd => hS' d (List.mem_cons_of_mem b hd))
        fun d hd => hg d (List.mem_cons_of_mem b hd)
      rw [List.mapM_cons, List.mapM_cons]
      rcases hg b (by simp) hb hb' with ⟨c, hR, hR', hone, hone'⟩ | ⟨e, hone, hone'⟩
      · rw [bind_ok hone, bind_ok hone']
        exact hrest.bind fun cs cs' w₁ w₁' _ _ hcs hw₁ => .ok (.both hR hR' hcs) hw₁
      · rw [bind_error hone, bind_error hone']
        exact .error fun _ => rfl

end Action

end SiteTree
