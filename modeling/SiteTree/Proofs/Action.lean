import SiteTree.World
import SiteTree.Proofs.FileSystem.Rename

/-!
What actions keep of the files, whether or not they fail, and what their results tell.
-/

namespace SiteTree.Action

variable {α β : Type} {J : FileSystem → Prop} {a : Action α} {f : α → Action β} {w w' : World} {v : α}

/-- The world that an action leaves behind. -/
def after (a : Action α) (w : World) : World :=
  match a w with
  | .ok _ w' => w'
  | .error _ w' => w'

/-- The files have the property after the action if they had it before. -/
def Keeps (J : FileSystem → Prop) (a : Action α) : Prop := ∀ w, J w.files → J (a.after w).files

theorem after_ok (h : a w = .ok v w') : after a w = w' := by rw [after, h]

theorem after_error {e : Failure} (h : a w = .error e w') : after a w = w' := by rw [after, h]

theorem bind_ok (h : a w = .ok v w') : (a >>= f) w = f v w' := by
  simp [bind, EStateM.bind, h]

theorem bind_error {e : Failure} (h : a w = .error e w') : (a >>= f) w = .error e w' := by
  simp [bind, EStateM.bind, h]

theorem bind_eq_ok {u : β} (h : (a >>= f) w = .ok u w') : ∃ v w₁, a w = .ok v w₁ ∧ f v w₁ = .ok u w' := by
  cases ha : a w with
  | ok v w₁ => exact ⟨v, w₁, rfl, by rwa [bind_ok ha] at h⟩
  | error e w₁ => rw [bind_error ha] at h; cases h

theorem after_bind_ok (h : a w = .ok v w') : after (a >>= f) w = after (f v) w' := by
  rw [after, bind_ok h, after]

theorem after_bind_error {e : Failure} (h : a w = .error e w') : after (a >>= f) w = w' :=
  after_error (bind_error h)

/-- Why an action fails, if it does. -/
def failure? (a : Action α) (w : World) : Option Failure :=
  match a w with
  | .ok _ _ => none
  | .error e _ => some e

theorem failure?_ok (h : a w = .ok v w') : failure? a w = none := by rw [failure?, h]

theorem failure?_error {e : Failure} (h : a w = .error e w') : failure? a w = some e := by rw [failure?, h]

theorem failure?_eq_none : failure? a w = none ↔ ∃ v w', a w = .ok v w' := by
  rw [failure?]
  split
  · next v w' h => exact ⟨fun _ => ⟨v, w', h⟩, fun _ => rfl⟩
  · next h => exact ⟨nofun, fun ⟨v, w', h'⟩ => nomatch h.symm.trans h'⟩

/-- What an action comes to, apart from the world that it leaves behind. -/
def outcome (a : Action α) (w : World) : Except Failure α :=
  match a w with
  | .ok v _ => .ok v
  | .error e _ => .error e

theorem outcome_ok (h : a w = .ok v w') : outcome a w = .ok v := by rw [outcome, h]

theorem outcome_error {e : Failure} (h : a w = .error e w') : outcome a w = .error e := by rw [outcome, h]

def succeeds (a : Action α) (w : World) : Bool :=
  match a w with
  | .ok _ _ => true
  | .error _ _ => false

theorem succeeds_iff : succeeds a w = true ↔ ∃ v w', a w = .ok v w' := by
  cases h : a w <;> simp [succeeds, h]

theorem not_succeeds_iff : succeeds a w = false ↔ ∃ e w', a w = .error e w' := by
  cases h : a w <;> simp [succeeds, h]

/-- The action succeeds, with a result and a world after it that pass. -/
def yields (a : Action α) (w : World) (f : α → World → Bool) : Bool :=
  match a w with
  | .ok v w' => f v w'
  | .error _ _ => false

theorem yields_iff {f : α → World → Bool} : yields a w f = true ↔ ∃ v w', a w = .ok v w' ∧ f v w' = true := by
  cases h : a w <;> simp [yields, h]

theorem get_bind (f : World → Action β) (w : World) : (get >>= f) w = f w w := rfl

theorem bind_keeps (ha : J (a.after w).files)
    (hf : ∀ v w', a w = .ok v w' → J w'.files → J ((f v).after w').files) : J ((a >>= f).after w).files := by
  cases h : a w with
  | ok v w' =>
      rw [after_ok h] at ha
      rw [after_bind_ok h]
      exact hf v w' h ha
  | error e w' =>
      rw [after_error h] at ha
      rwa [after_bind_error h]

theorem Keeps.bind (ha : Keeps J a) (hf : ∀ v, Keeps J (f v)) : Keeps J (a >>= f) :=
  fun w hw => bind_keeps (ha w hw) fun v w' _ hw' => hf v w' hw'

theorem Keeps.pure (v : α) : Keeps J (Pure.pure v : Action α) := fun _ h => h

theorem Keeps.throw (e : Failure) : Keeps J (MonadExcept.throw e : Action α) := fun _ h => h

theorem Keeps.tell (e : Event) : Keeps J (tell e) := fun _ h => h

theorem Keeps.debug (topic : Topic) (text : String) : Keeps J (debug topic text) := fun _ h => h

theorem Keeps.check (g : FileSystem → Location → Bool) : Keeps J (check g) := fun _ h => h

theorem look_eq (g : FileSystem → Location → Except Cause α) (blame : Cause → Failure) (w : World) :
    look g blame w = match g w.files w.cwd with
      | .ok v => .ok v w
      | .error cause => .error (blame cause) w := by
  rw [look, get_bind]
  cases g w.files w.cwd <;> rfl

theorem after_look (g : FileSystem → Location → Except Cause α) (blame : Cause → Failure) (w : World) :
    (look g blame).after w = w := by
  rw [after, look_eq]
  cases g w.files w.cwd <;> rfl

theorem Keeps.look (g : FileSystem → Location → Except Cause α) (blame : Cause → Failure) :
    Keeps J (look g blame) := fun w hw => by rwa [after_look]

theorem look_ok {g : FileSystem → Location → Except Cause α} {blame : Cause → Failure}
    (h : look g blame w = .ok v w') : w' = w ∧ g w.files w.cwd = .ok v := by
  rw [look_eq] at h
  cases hg : g w.files w.cwd with
  | error cause => rw [hg] at h; cases h
  | ok v => rw [hg] at h; cases h; exact ⟨rfl, rfl⟩

theorem change_eq (g : FileSystem → Location → Except Cause FileSystem)
    (blame : Cause → Failure) (w : World) :
    change g blame w = match g w.files w.cwd with
      | .ok files => .ok () { w with files := files }
      | .error cause => .error (blame cause) w := by
  rw [change, get_bind]
  cases g w.files w.cwd <;> rfl

theorem change_ok {g : FileSystem → Location → Except Cause FileSystem} {blame : Cause → Failure} {u : Unit}
    (h : change g blame w = .ok u w') : ∃ files, g w.files w.cwd = .ok files ∧ w' = { w with files := files } := by
  rw [change_eq] at h
  cases hg : g w.files w.cwd with
  | error cause => rw [hg] at h; cases h
  | ok files => rw [hg] at h; cases h; exact ⟨files, rfl, rfl⟩

theorem change_keeps {g : FileSystem → Location → Except Cause FileSystem}
    {blame : Cause → Failure} (hw : J w.files)
    (h : ∀ fs, g w.files w.cwd = .ok fs → J fs) : J ((change g blame).after w).files := by
  rw [after, change_eq]
  cases hg : g w.files w.cwd with
  | error cause => exact hw
  | ok files => exact h files hg

theorem changePart_eq (g : FileSystem → Location → Except (Cause × FileSystem) FileSystem)
    (blame : Cause → Failure) (w : World) : changePart g blame w = match g w.files w.cwd with
      | .ok files => .ok () { w with files := files }
      | .error (cause, files) => .error (blame cause) { w with files := files } := by
  rw [changePart, get_bind]
  cases g w.files w.cwd <;> rfl

theorem changePart_ok {g : FileSystem → Location → Except (Cause × FileSystem) FileSystem}
    {blame : Cause → Failure} {u : Unit} (h : changePart g blame w = .ok u w') :
    ∃ files, g w.files w.cwd = .ok files ∧ w' = { w with files := files } := by
  rw [changePart_eq] at h
  cases hg : g w.files w.cwd with
  | error e => rw [hg] at h; cases h
  | ok files => rw [hg] at h; cases h; exact ⟨files, rfl, rfl⟩

theorem changePart_files (g : FileSystem → Location → Except (Cause × FileSystem) FileSystem)
    (blame : Cause → Failure) (w : World) :
    ((changePart g blame).after w).files = FileSystem.left (g w.files w.cwd) := by
  rw [after, changePart_eq]
  cases hg : g w.files w.cwd <;> rfl

section

variable {p : Path} {files : FileSystem} {cause : Cause}

theorem makeDirectories_made (h : w.files.makeDirectories w.cwd p = .ok files) :
    makeDirectories p w = .ok () { w with files := files } := by
  rw [makeDirectories, changePart_eq, h]

theorem makeDirectories_refused (h : w.files.makeDirectories w.cwd p = .error (cause, files)) :
    makeDirectories p w = .error (.write p cause) { w with files := files } := by
  rw [makeDirectories, changePart_eq, h]

end

theorem ofExcept_ok {x : Except Failure α} (h : ofExcept x w = .ok v w') : x = .ok v ∧ w' = w := by
  cases x <;> cases h
  exact ⟨rfl, rfl⟩

/-- A list of actions comes to one of its members when those before it have succeeded. -/
def Comes (f : β → Action Unit) (l : List β) (w : World) (b : β) (w' : World) : Prop :=
  ∃ before rest, l = before ++ b :: rest ∧ before.forM f w = .ok () w'

/-- The members of a list that are come to, each with the world it is come to in. -/
def arrivals (f : β → Action Unit) : List β → World → List (β × World)
  | [], _ => []
  | b :: l, w => (b, w) :: match f b w with
    | .ok _ w' => arrivals f l w'
    | .error _ _ => []

theorem mem_arrivals {f : β → Action Unit} {l : List β} {b : β} : (b, w') ∈ arrivals f l w ↔
    Comes f l w b w' := by
  induction l generalizing w with
  | nil => simp [arrivals, Comes]
  | cons c l ih =>
      rw [arrivals, List.mem_cons]
      constructor
      · rintro (h | h)
        · cases h
          exact ⟨[], l, rfl, rfl⟩
        · cases hc : f c w with
          | error e w₁ => simp [hc] at h
          | ok u w₁ =>
              rw [hc] at h
              obtain ⟨before, rest, rfl, hrun⟩ := ih.1 h
              exact ⟨c :: before, rest, rfl, (bind_ok hc).trans hrun⟩
      · rintro ⟨before, rest, hl, hrun⟩
        cases before with
        | nil =>
            cases hl
            cases hrun
            exact .inl rfl
        | cons d before =>
            obtain ⟨rfl, rfl⟩ := List.cons.inj hl
            obtain ⟨u, w₁, hc, hrest⟩ := bind_eq_ok (a := f c) hrun
            rw [hc]
            exact .inr (ih.2 ⟨before, rest, rfl, hrest⟩)

/-- What the rest comes to, all come to. -/
theorem Comes.cons {f : β → Action Unit} {l : List β} {b c : β} {u : Unit} {w₁ w₂ : World} (hb : f b w = .ok u w₁)
    (h : Comes f l w₁ c w₂) : Comes f (b :: l) w c w₂ := by
  obtain ⟨before, rest, rfl, hrun⟩ := h
  exact ⟨b :: before, rest, rfl, (bind_ok hb).trans hrun⟩

theorem forM_keeps {f : β → Action Unit} {l : List β} (hw : J w.files)
    (h : ∀ b w', Comes f l w b w' → J w'.files → J ((f b).after w').files) :
    J ((l.forM f).after w).files := by
  induction l generalizing w with
  | nil => exact hw
  | cons b l ih =>
      show J ((f b >>= fun _ => l.forM f).after w).files
      refine bind_keeps (h b w ⟨[], l, rfl, rfl⟩ hw) fun _ w₁ h₁ hw₁ => ?_
      exact ih hw₁ fun c w₂ hc hw₂ => h c w₂ (hc.cons h₁) hw₂

theorem Comes.keeps {f : β → Action Unit} {l : List β} {b : β} (hc : Comes f l w b w') (hw : J w.files)
    (h : ∀ b w', Comes f l w b w' → J w'.files → J ((f b).after w').files) : J w'.files := by
  obtain ⟨before, rest, rfl, hrun⟩ := hc
  have hbefore : J ((before.forM f).after w).files := by
    refine forM_keeps hw fun c w₁ hc => h c w₁ ?_
    obtain ⟨before', rest', rfl, hrun'⟩ := hc
    exact ⟨before', rest' ++ b :: rest, by simp, hrun'⟩
  rwa [after_ok hrun] at hbefore

/-- What the members of a list have given so far, as long as all of them succeed. -/
theorem forM_collects {I : List α → World → Prop} {f : β → Action Unit} {g : β → List α} {l : List β} {A : List α}
    (hA : I A w) (h : ∀ b w₁ w₂ A, Comes f l w b w₁ → f b w₁ = .ok () w₂ → I A w₁ → I (A ++ g b) w₂)
    (hrun : l.forM f w = .ok () w') : I (A ++ l.flatMap g) w' := by
  induction l generalizing w A with
  | nil =>
      cases hrun
      simpa using hA
  | cons b l ih =>
      obtain ⟨u, w₁, hb, hrun⟩ := bind_eq_ok (a := f b) hrun
      rw [List.flatMap_cons, ← List.append_assoc]
      exact ih (h b w w₁ A ⟨[], l, rfl, rfl⟩ hb hA) (fun c w₂ w₃ A' hc => h c w₂ w₃ A' (hc.cons hb)) hrun

/-- Only what the members do when they are come to matters. -/
theorem forM_congr {f g : β → Action Unit} {l : List β} (h : ∀ b w', Comes f l w b w' → f b w' = g b w') :
    l.forM f w = l.forM g w := by
  induction l generalizing w with
  | nil => rfl
  | cons b l ih =>
      have hb : f b w = g b w := h b w ⟨[], l, rfl, rfl⟩
      show (f b >>= fun _ => l.forM f) w = (g b >>= fun _ => l.forM g) w
      cases hf : f b w with
      | error e w₁ => rw [bind_error hf, bind_error (hb.symm.trans hf)]
      | ok u w₁ =>
          rw [bind_ok hf, bind_ok (hb.symm.trans hf)]
          exact ih fun c w₂ hc => h c w₂ (hc.cons hf)

/-- The first failure is the failure of all. -/
theorem Comes.error {f : β → Action Unit} {l : List β} {b : β} {e : Failure} {w₁ : World} (h : Comes f l w b w₁)
    (hb : f b w₁ = .error e w') : l.forM f w = .error e w' := by
  obtain ⟨before, rest, rfl, hrun⟩ := h
  induction before generalizing w with
  | nil =>
      cases hrun
      exact bind_error hb
  | cons c before ih =>
      obtain ⟨u, w₂, hc, hrest⟩ := bind_eq_ok (a := f c) hrun
      exact (bind_ok hc).trans (ih hrest)

theorem Keeps.forM {f : β → Action Unit} {l : List β} (h : ∀ b ∈ l, Keeps J (f b)) : Keeps J (l.forM f) :=
  fun _ hw => forM_keeps hw fun b w' hc hw' => by
    obtain ⟨before, rest, rfl, -⟩ := hc
    exact h b (by simp) w' hw'

theorem Keeps.mapM {g : β → Action α} {l : List β} (h : ∀ b ∈ l, Keeps J (g b)) : Keeps J (l.mapM g) := by
  induction l with
  | nil => exact Keeps.pure _
  | cons b l ih =>
      rw [List.mapM_cons]
      exact (h b (by simp)).bind fun _ =>
        (ih fun c hc => h c (List.mem_cons_of_mem _ hc)).bind fun _ => Keeps.pure _

/-- Members that change nothing give their results one after another. -/
theorem mapM_reads {g : β → Action α} {r : β → α} {l : List β} (h : ∀ b ∈ l, g b w = .ok (r b) w) :
    l.mapM g w = .ok (l.map r) w := by
  induction l with
  | nil => rfl
  | cons b l ih =>
      rw [List.mapM_cons, bind_ok (h b (by simp)), bind_ok (ih fun c hc => h c (List.mem_cons_of_mem b hc))]
      rfl

/-- The working directory is the same after the action, whether or not it fails. -/
def Stays (a : Action α) : Prop := ∀ w, (a.after w).cwd = w.cwd

namespace Stays

theorem bind (ha : Stays a) (hf : ∀ v, Stays (f v)) : Stays (a >>= f) := by
  intro w
  have hw := ha w
  cases h : a w with
  | ok v w' =>
      rw [after_ok h] at hw
      rw [after_bind_ok h, hf v w', hw]
  | error e w' =>
      rw [after_error h] at hw
      rw [after_bind_error h, hw]

theorem pure (v : α) : Stays (Pure.pure v : Action α) := fun _ => rfl

theorem throw (e : Failure) : Stays (MonadExcept.throw e : Action α) := fun _ => rfl

theorem get : Stays MonadState.get := fun _ => rfl

theorem debug (topic : Topic) (text : String) : Stays (debug topic text) := fun _ => rfl

theorem ofExcept (x : Except Failure α) : Stays (ofExcept x) := by
  intro w
  cases x with
  | ok v => rfl
  | error e => rfl

theorem look (g : FileSystem → Location → Except Cause α) (blame : Cause → Failure) : Stays (look g blame) := by
  intro w
  rw [after_look]

theorem change (g : FileSystem → Location → Except Cause FileSystem) (blame : Cause → Failure) : Stays (change g blame) := by
  intro w
  rw [after, change_eq]
  cases g w.files w.cwd with
  | ok files => rfl
  | error cause => rfl

theorem changePart (g : FileSystem → Location → Except (Cause × FileSystem) FileSystem) (blame : Cause → Failure) :
    Stays (changePart g blame) := by
  intro w
  rw [after, changePart_eq]
  cases g w.files w.cwd with
  | ok files => rfl
  | error e => rfl

theorem forM {f : β → Action Unit} {l : List β} (h : ∀ b, Stays (f b)) : Stays (l.forM f) := by
  induction l with
  | nil => exact pure ()
  | cons b l ih => exact (h b).bind fun _ => ih

theorem mapM {g : β → Action α} {l : List β} (h : ∀ b, Stays (g b)) : Stays (l.mapM g) := by
  induction l with
  | nil => exact pure []
  | cons b l ih =>
      rw [List.mapM_cons]
      exact (h b).bind fun _ => ih.bind fun _ => pure _

theorem copy (source target : Path) : Stays (copy source target) := by
  refine bind ?_ fun _ => (debug _ _).bind fun _ => change _ _
  rw [makeParent]
  cases target.parent? with
  | none => exact pure ()
  | some parent => exact changePart _ _

end Stays

end SiteTree.Action
