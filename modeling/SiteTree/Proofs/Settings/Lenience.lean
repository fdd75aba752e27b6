import Mathlib.Data.List.Forall2
import SiteTree.Proofs.Json.Reader
import SiteTree.Proofs.Yaml.Node
import SiteTree.Settings.OfYaml

/-!
A JSON document is read as YAML when it is no settings as JSON. What stands bare is then taken for a text where a text
is wanted; in all else the document has to be settings as before.
-/

namespace SiteTree.Settings

open Json (Written Part IsBare Says saying? mem_words)
open Yaml

/-- What a value says where a text is wanted: a string what it says, if no line ends in it, and what stands bare itself. -/
def SaysText : Written → String → Prop
  | .bare t, u => u = String.ofList t
  | .quoted body, u => (∀ a ∈ body, isBreak a = false) → saying? body = some u
  | _, _ => False

/-- A pattern. What stands bare is one only if it means nothing else, like a number without bounds. -/
def SaysPattern : Written → String → Prop
  | .bare t, u => Plain.ofText (String.ofList t) = .text u
  | e, u => SaysText e u

def flagWord : Option Bool → List Char
  | .none => ['n', 'u', 'l', 'l']
  | some true => ['t', 'r', 'u', 'e']
  | some false => ['f', 'a', 'l', 's', 'e']

def SaysPath (e : Written) : Option Path → Prop
  | .none => e = .bare ['n', 'u', 'l', 'l']
  | some p => SaysText e p.text

/-- A field of the settings is what the value says. Nothing is said of the values in a scope. -/
def Field.Fits (e : Written) (s : Settings) : Field → Prop
  | .source => SaysPath e s.source
  | .output => SaysPath e s.output
  | .ignore => (∃ u, SaysPattern e u ∧ s.ignore = [u]) ∨ ∃ l, e = .list l ∧ List.Forall₂ SaysPattern l s.ignore
  | .scope => ∃ l, e = .object l
  | .links => ∃ l, e = .list l ∧ List.Forall₂ SaysText l s.links
  | .clean => e = .bare (flagWord s.clean)
  | .hash => e = .bare (flagWord s.hash)

def Field.Same (s s' : Settings) : Field → Prop
  | .source => s'.source = s.source
  | .output => s'.output = s.output
  | .ignore => s'.ignore = s.ignore
  | .scope => s'.scope = s.scope
  | .links => s'.links = s.links
  | .clean => s'.clean = s.clean
  | .hash => s'.hash = s.hash

/-- An object whose keys are fields, each at most once, with values that fit. -/
def Loose (e : Written) (s : Settings) : Prop :=
  ∃ l fs, e = .object l ∧ fs.Nodup ∧ List.Forall₂ (fun p f => (saying? p.1).bind Field.ofName? = some f ∧ f.Fits p.2 s) l fs ∧
    ∀ f, f ∉ fs → f.Same none s

variable {s s' : Settings} {f : Field} {e : Written}

theorem Field.Same.refl (f : Field) (s : Settings) : f.Same s s := by
  cases f <;> rfl

theorem Field.Same.trans {s'' : Settings} (h : f.Same s s') (h' : f.Same s' s'') : f.Same s s'' := by
  cases f <;> exact Eq.trans h' h

theorem Field.Fits.congr (h : f.Fits e s) (hsame : f.Same s s') : f.Fits e s' := by
  cases f <;> simp only [Field.Fits, Field.Same] at h hsame ⊢ <;> first | exact h | rw [hsame]; exact h

namespace Reading

/-- What holds of every answer. -/
def Gives {α : Type} (m : Reading α) (P : α → Prop) : Prop := ∀ n a n', m.run n = .ok (a, n') → P a

namespace Gives

variable {α β : Type} {m : Reading α} {P : α → Prop} {Q : β → Prop}

theorem pure {a : α} (h : P a) : Gives (pure a : Reading α) P := by
  rintro n b n' ⟨⟩
  exact h

theorem bind {g : α → Reading β} (hm : Gives m P) (hg : ∀ a, P a → Gives (g a) Q) : Gives (m >>= g) Q := by
  intro n b n' h
  simp only [StateT.run_bind] at h
  cases hrun : m.run n with
  | error t =>
      rw [hrun] at h
      cases h
  | ok p =>
      rw [hrun] at h
      exact hg p.1 (hm n p.1 p.2 hrun) p.2 b n' h

theorem mono {P' : α → Prop} (hm : Gives m P) (h : ∀ a, P a → P' a) : Gives m P' :=
  fun n a n' hrun => h a (hm n a n' hrun)

theorem broken : Gives (broken : Reading α) P := nofun

theorem refuse (place text : String) : Gives (refuse place text : Reading α) P := nofun

theorem wrongType (place wanted : String) (node : Node) : Gives (wrongType place wanted node : Reading α) P :=
  bind (P := fun _ => True) (fun _ _ _ _ => trivial) fun _ _ => refuse _ _

end Gives

variable {anchors : Nat → Option Node} {place : String} {a : Node} {t : List Char}

theorem says_of_nodes {body u : List Char} (h : (∀ c ∈ body, isBreak c = false) → Says body u) :
    SaysText (.quoted body) (String.ofList u) := fun hall => (h hall).saying?

theorem text_gives (h : Nodes (.item e) [a]) (wanted : String) : Gives (text anchors place wanted a) (SaysText e) := by
  rw [text]
  cases h with
  | item h =>
      cases h <;> simp only [target, pure_bind]
      case bare => exact .pure rfl
      case quoted hsaid => exact .pure (says_of_nodes hsaid)
      all_goals exact .wrongType _ _ _

/-- The items of a list, each read on its own. -/
theorem items_gives {α : Type} {read : Nat → Node → Reading α} {R : Written → α → Prop} {l : List Written} {nodes : List Node}
    (hread : ∀ n e a, Nodes (.item e) [a] → Gives (read n a) (R e)) (h : Nodes (.items l) nodes) (n : Nat) :
    Gives (items read true n nodes) (List.Forall₂ R l) := by
  induction l generalizing n nodes with
  | nil =>
      cases h
      exact .pure .nil
  | cons e l ih =>
      cases h with
      | items ha hl => exact .bind (hread n e _ ha) fun x hx => .bind (ih hl (n + 1)) fun xs hxs => .pure (.cons hx hxs)

theorem toList_eq_of_ofList {t : List Char} {u : String} (h : String.ofList t = u) : t = u.toList := by
  rw [← h, String.toList_ofList]

theorem isNull_of_isBare (h : IsBare t) : Plain.isNull (String.ofList t) = true ↔ t = flagWord .none := by
  constructor
  · intro hnull
    simp only [Plain.isNull, List.contains_cons, List.contains_nil, Bool.or_false, Bool.or_eq_true, beq_iff_eq] at hnull
    rcases hnull with ht | ht | ht | ht <;> rw [toList_eq_of_ofList ht] at h ⊢
    · rfl
    all_goals exact absurd (mem_words h (by decide) (by decide)) (by decide)
  · rintro rfl
    rfl

theorem bool?_of_isBare (h : IsBare t) {b : Bool} (hb : Plain.bool? (String.ofList t) = some b) : t = flagWord (some b) := by
  rw [Plain.bool?] at hb
  split at hb
  · next hword =>
      cases hb
      simp only [List.contains_cons, List.contains_nil, Bool.or_false, Bool.or_eq_true, beq_iff_eq] at hword
      rcases hword with ht | ht | ht <;> rw [toList_eq_of_ofList ht] at h ⊢
      · rfl
      all_goals exact absurd (mem_words h (by decide) (by decide)) (by decide)
  · split at hb
    · next hword =>
        cases hb
        simp only [List.contains_cons, List.contains_nil, Bool.or_false, Bool.or_eq_true, beq_iff_eq] at hword
        rcases hword with ht | ht | ht <;> rw [toList_eq_of_ofList ht] at h ⊢
        · rfl
        all_goals exact absurd (mem_words h (by decide) (by decide)) (by decide)
    · cases hb

theorem isBlank_eq_false (h : Nodes (.item e) [a]) : isBlank a = false := by
  cases h with
  | item h =>
      cases h with
      | bare ht =>
          obtain ⟨b, u, rfl, -⟩ := head_of_isBare ht
          simp [isBlank]
      | quoted => simp [isBlank]
      | list => rfl
      | object => rfl

/-- Only the word for nothing is nothing. -/
theorem isPresent_cases (h : Nodes (.item e) [a]) :
    isPresent a = pure false ∧ e = .bare (flagWord .none) ∨ isPresent a = pure true ∧ e ≠ .bare (flagWord .none) := by
  cases h with
  | item h =>
      cases h with
      | @bare t ht =>
          have hempty : (String.ofList t).isEmpty = false := by
            obtain ⟨b, u, rfl, -⟩ := head_of_isBare ht
            simp
          cases hnull : Plain.isNull (String.ofList t) with
          | true => exact .inl ⟨by simp [isPresent, hempty, hnull], by rw [(isNull_of_isBare ht).1 hnull]⟩
          | false =>
              refine .inr ⟨by simp [isPresent, hempty, hnull], fun heq => ?_⟩
              cases heq
              cases hnull
      | quoted => exact .inr ⟨rfl, nofun⟩
      | list => exact .inr ⟨rfl, nofun⟩
      | object => exact .inr ⟨rfl, nofun⟩

theorem texts_gives (h : Nodes (.item e) [a]) :
    Gives (texts anchors place a) fun us => ∃ l, e = .list l ∧ List.Forall₂ SaysText l us := by
  have hblank := isBlank_eq_false h
  rw [texts]
  cases h with
  | item h =>
      cases h <;> simp only [target, pure_bind]
      case list hl => exact (items_gives (fun n e a ha => text_gives ha _) hl 0).mono fun us hus => ⟨_, rfl, hus⟩
      all_goals
        simp only [hblank, Bool.false_eq_true, if_false]
        exact .wrongType _ _ _

theorem scope_gives (depth : Nat) (h : Nodes (.item e) [a]) :
    Gives (scope anchors depth place a) fun _ => ∃ l, e = .object l := by
  have hblank := isBlank_eq_false h
  rw [scope]
  cases h with
  | item h =>
      cases h <;> simp only [target, pure_bind]
      case object l _ _ => exact fun _ _ _ _ => ⟨l, rfl⟩
      all_goals
        simp only [hblank, Bool.false_eq_true, if_false]
        exact .wrongType _ _ _

theorem target_eq (h : Nodes (.item e) [a]) : target anchors a = pure a := by
  cases h with
  | item h => cases h <;> rfl

theorem path_gives (h : Nodes (.item e) [a]) : Gives (path anchors place a) (SaysPath e) := by
  rw [path, target_eq h, pure_bind]
  rcases isPresent_cases h with ⟨hpresent, he⟩ | ⟨hpresent, -⟩ <;> rw [hpresent, pure_bind]
  · exact .pure he
  · exact .bind (text_gives h _) fun u hu => .pure hu

theorem flag_gives (h : Nodes (.item e) [a]) : Gives (flag anchors place a) fun b => e = .bare (flagWord b) := by
  rw [flag, target_eq h, pure_bind]
  rcases isPresent_cases h with ⟨hpresent, he⟩ | ⟨hpresent, -⟩ <;> rw [hpresent, pure_bind]
  · exact .pure he
  · cases h with
    | item h =>
        cases h with
        | @bare t ht =>
            cases hb : Plain.bool? (String.ofList t) with
            | none =>
                simp only [if_true, decide_true, Bool.true_or, hb]
                exact .wrongType _ _ _
            | some b =>
                simp only [if_true, decide_true, Bool.true_or, hb]
                exact .pure (by rw [bool?_of_isBare ht hb])
        | quoted => exact .wrongType _ _ _
        | list => exact .wrongType _ _ _
        | object => exact .wrongType _ _ _

/-- Only a scalar turns out to be a text. -/
theorem content_gives_text (depth : Nat) (h : Nodes (.item e) [a]) :
    Gives (content anchors depth place a) fun c => ∀ u, c = .text u → SaysPattern e u := by
  rw [content.eq_def]
  dsimp only
  rw [target_eq h, pure_bind]
  cases h with
  | item h =>
      cases h with
      | @bare t ht =>
          simp only [isOwnTag, Option.any_none, Bool.false_eq_true, if_false, meaning, if_true, pure_bind]
          split
          · next u hu => exact .pure fun v hv => by cases hv; exact hu
          · exact .refuse _ _
          · exact .pure nofun
      | quoted hsaid => exact .pure fun v hv => by cases hv; exact says_of_nodes hsaid
      | list hl =>
          cases depth with
          | zero => exact .broken
          | succ depth => exact .bind (P := fun _ => True) (fun _ _ _ _ => trivial) fun _ _ => .pure nofun
      | object hl =>
          cases depth with
          | zero => exact .broken
          | succ depth => exact .bind (P := fun _ => True) (fun _ _ _ _ => trivial) fun _ _ => .pure nofun

/-- Only a list turns out to be a list. -/
theorem content_gives_list (depth : Nat) (h : Nodes (.item e) [a]) :
    Gives (content anchors depth place a) fun c => ∀ cs, c = .list cs →
      ∃ l, e = .list l ∧ List.Forall₂ (fun e c => ∀ u, c = .text u → SaysPattern e u) l cs := by
  rw [content.eq_def]
  dsimp only
  rw [target_eq h, pure_bind]
  cases h with
  | item h =>
      cases h with
      | @bare t ht =>
          simp only [isOwnTag, Option.any_none, Bool.false_eq_true, if_false, meaning, if_true, pure_bind]
          split
          · exact .pure nofun
          · exact .refuse _ _
          · exact .pure nofun
      | quoted hsaid => exact .pure nofun
      | @list l nodes hl =>
          cases depth with
          | zero => exact .broken
          | succ depth =>
              refine .bind (items_gives (fun n e a ha => content_gives_text depth ha) hl 0) fun cs hcs => .pure fun cs' heq => ?_
              cases heq
              exact ⟨l, rfl, hcs⟩
      | object hl =>
          cases depth with
          | zero => exact .broken
          | succ depth => exact .bind (P := fun _ => True) (fun _ _ _ _ => trivial) fun _ _ => .pure nofun

theorem contentText?_eq_some {c : Content} {u : String} : contentText? c = some u ↔ c = .text u := by
  cases c <;> simp [contentText?]

theorem patterns_of_contents {l : List Written} {cs : List Content} {us : List String}
    (h : List.Forall₂ (fun e c => ∀ u, c = .text u → SaysPattern e u) l cs) (hus : cs.mapM contentText? = some us) :
    List.Forall₂ SaysPattern l us := by
  induction h generalizing us with
  | nil =>
      cases hus
      exact .nil
  | cons hc _ ih =>
      simp only [List.mapM_cons, Option.bind_eq_bind, Option.bind_eq_some_iff] at hus
      obtain ⟨u, hu, us', hus', heq⟩ := hus
      cases heq
      exact .cons (hc u (contentText?_eq_some.1 hu)) (ih hus')

theorem Gives.and {α : Type} {m : Reading α} {P Q : α → Prop} (h : Gives m P) (h' : Gives m Q) : Gives m fun a => P a ∧ Q a :=
  fun n a n' hrun => ⟨h n a n' hrun, h' n a n' hrun⟩

theorem patterns_gives (depth : Nat) (h : Nodes (.item e) [a]) : Gives (patterns anchors depth place a) fun us =>
    (∃ u, SaysPattern e u ∧ us = [u]) ∨ ∃ l, e = .list l ∧ List.Forall₂ SaysPattern l us := by
  refine .bind (.and (content_gives_text depth h) (content_gives_list depth h)) fun c hc => ?_
  cases c with
  | text u => exact .pure (.inl ⟨u, hc.1 u rfl, rfl⟩)
  | other => exact .refuse _ _
  | list cs =>
      obtain ⟨l, rfl, hl⟩ := hc.2 cs rfl
      cases hus : cs.mapM contentText? with
      | none =>
          simp only [hus]
          exact .refuse _ _
      | some us =>
          simp only [hus]
          exact .pure (.inr ⟨l, rfl, patterns_of_contents hl hus⟩)

/-- Reading the value of a field sets that field, and no other. -/
theorem value_gives (f : Field) (s : Settings) (h : Nodes (.item e) [a]) :
    Gives (value anchors s f place a) fun s' => f.Fits e s' ∧ ∀ g, g ≠ f → g.Same s s' := by
  cases f with
  | source => exact .bind (path_gives h) fun p hp => .pure ⟨hp, fun g hg => by cases g <;> first | rfl | exact absurd rfl hg⟩
  | output => exact .bind (path_gives h) fun p hp => .pure ⟨hp, fun g hg => by cases g <;> first | rfl | exact absurd rfl hg⟩
  | ignore =>
      exact .bind (patterns_gives _ h) fun us hus => .pure ⟨hus, fun g hg => by cases g <;> first | rfl | exact absurd rfl hg⟩
  | scope => exact .bind (scope_gives _ h) fun l hl => .pure ⟨hl, fun g hg => by cases g <;> first | rfl | exact absurd rfl hg⟩
  | links => exact .bind (texts_gives h) fun us hus => .pure ⟨hus, fun g hg => by cases g <;> first | rfl | exact absurd rfl hg⟩
  | clean => exact .bind (flag_gives h) fun b hb => .pure ⟨hb, fun g hg => by cases g <;> first | rfl | exact absurd rfl hg⟩
  | hash => exact .bind (flag_gives h) fun b hb => .pure ⟨hb, fun g hg => by cases g <;> first | rfl | exact absurd rfl hg⟩

theorem field_gives {u : List Char} {key : List Char} (hkey : Says key u) (seen : List Field) :
    Gives (field anchors seen (.scalar ⟨String.ofList u, .quoted, .none⟩)) fun f =>
      (saying? key).bind Field.ofName? = some f ∧ f ∉ seen := by
  rw [hkey.saying?, Option.bind_some]
  simp only [field, text, target, pure_bind]
  cases hname : Field.ofName? (String.ofList u) with
  | none => exact .refuse _ _
  | some f =>
      dsimp only
      split
      · exact .refuse _ _
      · next hseen => exact .pure ⟨rfl, by simpa using hseen⟩

/-- Reading the fields of an object sets those that it has, each once. -/
theorem fields_gives {l : List (List Char × Written)} {nodes : List Node} (h : Nodes (.fields l) nodes) (seen : List Field)
    (s : Settings) : Gives (fields anchors true seen s nodes) fun s' => ∃ fs : List Field, fs.Nodup ∧ (∀ f ∈ fs, f ∉ seen) ∧
      List.Forall₂ (fun p f => (saying? p.1).bind Field.ofName? = some f ∧ f.Fits p.2 s') l fs ∧
      ∀ f, f ∉ fs → f.Same s s' := by
  induction l generalizing nodes seen s with
  | nil =>
      cases h
      exact .pure ⟨[], .nil, nofun, .nil, fun f _ => .refl f s⟩
  | cons p l ih =>
      cases h with
      | fields hp hl =>
          cases hp with
          | field hkey hnode =>
              refine .bind (field_gives hkey seen) fun f hf => .bind (value_gives f s hnode) fun s₁ hs₁ =>
                (ih hl (f :: seen) s₁).mono fun s' hs' => ?_
              obtain ⟨fs, hnodup, hseen, hfits, hsame⟩ := hs'
              have hfresh : f ∉ fs := fun hmem => hseen f hmem List.mem_cons_self
              refine ⟨f :: fs, List.nodup_cons.2 ⟨hfresh, hnodup⟩, ?_, .cons ⟨hf.1, hs₁.1.congr (hsame f hfresh)⟩ hfits, fun g hg => ?_⟩
              · rintro g (_ | ⟨_, hg⟩)
                · exact hf.2
                · exact fun hmem => hseen g hg (List.mem_cons_of_mem f hmem)
              · obtain ⟨hne, hg⟩ : g ≠ f ∧ g ∉ fs := by simpa using hg
                exact (hs₁.2 g hne).trans (hsame g hg)

theorem settings_gives (h : Nodes (.item e) [a]) : Gives (settings anchors a) (Loose e) := by
  have hblank := isBlank_eq_false h
  rw [settings, target_eq h, pure_bind]
  cases h with
  | item h =>
      cases h
      case object l nodes hl =>
        refine (fields_gives hl [] none).mono fun s hs => ?_
        obtain ⟨fs, hnodup, -, hfits, hsame⟩ := hs
        exact ⟨l, fs, rfl, hnodup, hfits, hsame⟩
      all_goals
        simp only [hblank, Bool.false_eq_true, if_false]
        exact .wrongType _ _ _

end Reading

/-- A JSON document that has settings as YAML is an object of fields. -/
theorem ofDocument_loose {content : String} (h : Json.IsDocument content e)
    (hs : ofDocument (Document.ofText content) = .ok s) : Loose e s := by
  rw [ofDocument] at hs
  split at hs
  · rw [Document.not_blank h] at hs
    cases hs
  · next a ha =>
      cases hrun : (Reading.settings (Document.ofText content).anchors a).run (100 * (Document.ofText content).events) with
      | error t =>
          rw [hrun] at hs
          cases hs
      | ok p =>
          rw [hrun] at hs
          cases hsound : (Document.ofText content).sound with
          | false =>
              rw [hsound] at hs
              cases hs
          | true =>
              obtain ⟨b, hb, hnodes⟩ := Document.ofText_nodes h hsound
              cases ha.symm.trans hb
              have heq : p.1 = s := by
                rw [hsound] at hs
                exact Except.ok.inj hs
              exact heq ▸ Reading.settings_gives hnodes _ p.1 p.2 hrun

/-- Something stands bare where a text is wanted. Nothing at all is wanted for a path too. -/
def Field.TakesBare (e : Written) : Field → Prop
  | .source | .output => ∃ t, e = .bare t ∧ t ≠ flagWord .none
  | .ignore => (∃ t, e = .bare t) ∨ ∃ l t, e = .list l ∧ .bare t ∈ l
  | .links => ∃ l t, e = .list l ∧ .bare t ∈ l
  | .scope | .clean | .hash => False

def HoldsBare (e : Written) : Prop :=
  ∃ l key v f, e = .object l ∧ (key, v) ∈ l ∧ (saying? key).bind Field.ofName? = some f ∧ f.TakesBare v

theorem not_isNumber_flagWord (b : Option Bool) : ¬Json.IsNumber (flagWord b) := by
  intro h
  obtain ⟨a, u, heq, ha⟩ := Json.head_of_isNumber h
  match b with
  | .none | some true | some false =>
      cases heq
      rcases ha with ha | ⟨ha, -⟩ <;> exact absurd ha (by decide)

theorem flag?_denotes {b : Option Bool} {j : Json} (h : Json.Denotes (.item (.bare (flagWord b))) j) : flag? j = some b := by
  cases h with
  | item h =>
      generalize hword : flagWord b = w at h
      cases h with
      | null =>
          match b with
          | .none => rfl
          | some true | some false => cases hword
      | yes =>
          match b with
          | some true => rfl
          | .none | some false => cases hword
      | no =>
          match b with
          | some false => rfl
          | .none | some true => cases hword
      | number ht => exact absurd (hword ▸ ht) (not_isNumber_flagWord b)

theorem path?_denotes {j : Json} {p : Option Path} (h : Json.Denotes (.item e) j) (he : SaysPath e p)
    (hbare : ¬∃ t, e = .bare t ∧ t ≠ flagWord .none) : ∃ q, path? j = some q := by
  cases h with
  | item h =>
      cases h with
      | null => exact ⟨_, rfl⟩
      | yes => exact absurd ⟨_, rfl, by decide⟩ hbare
      | no => exact absurd ⟨_, rfl, by decide⟩ hbare
      | number ht => exact absurd ⟨_, rfl, fun heq => not_isNumber_flagWord .none (heq ▸ ht)⟩ hbare
      | quoted => exact ⟨_, rfl⟩
      | list => cases p <;> cases he
      | object => cases p <;> cases he

theorem texts?_denotes {js : List Json} {l : List Written} {R : Written → String → Prop} {us : List String}
    (hR : ∀ e u, R e u → (∃ t, e = .bare t) ∨ ∃ body, e = .quoted body) (h : Json.Denotes (.items l) (.list js))
    (hl : List.Forall₂ R l us) (hbare : ∀ t, .bare t ∉ l) : ∃ vs, js.mapM text? = some vs := by
  induction hl generalizing js with
  | nil =>
      cases h
      exact ⟨[], rfl⟩
  | @cons e u l us he _ ih =>
      cases h with
      | items hd hl =>
          obtain ⟨vs, hvs⟩ := ih hl fun t ht => hbare t (List.mem_cons_of_mem e ht)
          rcases hR e u he with ⟨t, rfl⟩ | ⟨body, rfl⟩
          · exact absurd List.mem_cons_self (hbare t)
          · cases hd with
            | item hd =>
                cases hd with
                | quoted => exact ⟨_, by rw [List.mapM_cons, hvs]; rfl⟩

theorem text_or_bare {e : Written} {u : String} (h : SaysText e u) : (∃ t, e = .bare t) ∨ ∃ body, e = .quoted body := by
  cases e with
  | bare t => exact .inl ⟨t, rfl⟩
  | quoted body => exact .inr ⟨body, rfl⟩
  | list => cases h
  | object => cases h

theorem pattern_or_bare {e : Written} {u : String} (h : SaysPattern e u) : (∃ t, e = .bare t) ∨ ∃ body, e = .quoted body := by
  cases e with
  | bare t => exact .inl ⟨t, rfl⟩
  | quoted | list | object => exact text_or_bare (u := u) h

theorem denotes_list {l : List Written} {j : Json} (h : Json.Denotes (.item (.list l)) j) :
    ∃ js, j = .list js ∧ Json.Denotes (.items l) (.list js) := by
  cases h with
  | item h =>
      cases h with
      | list h => cases h with
        | noItems => exact ⟨_, rfl, .noItems⟩
        | items hd hl => exact ⟨_, rfl, .items hd hl⟩

theorem denotes_object {l : List (List Char × Written)} {j : Json} (h : Json.Denotes (.item (.object l)) j) :
    ∃ js, j = .object js ∧ Json.Denotes (.fields l) (.object js) := by
  cases h with
  | item h =>
      cases h with
      | object h => cases h with
        | noFields => exact ⟨_, rfl, .noFields⟩
        | fields hsaid hd hl => exact ⟨_, rfl, .fields hsaid hd hl⟩

/-- A value that fits a field sets it as JSON too, unless it stands bare where a text is wanted. -/
theorem set?_denotes {j : Json} (s₀ : Settings) (h : Json.Denotes (.item e) j) (hfits : f.Fits e s) (hbare : ¬f.TakesBare e) :
    ∃ s₁, s₀.set? f j = some s₁ := by
  cases f with
  | source =>
      obtain ⟨q, hq⟩ := path?_denotes h hfits hbare
      exact ⟨_, by rw [set?, hq]; rfl⟩
  | output =>
      obtain ⟨q, hq⟩ := path?_denotes h hfits hbare
      exact ⟨_, by rw [set?, hq]; rfl⟩
  | ignore =>
      rcases hfits with ⟨u, hu, -⟩ | ⟨l, rfl, hl⟩
      · rcases pattern_or_bare hu with ⟨t, rfl⟩ | ⟨body, rfl⟩
        · exact absurd (.inl ⟨t, rfl⟩) hbare
        · cases h with
          | item h =>
              cases h with
              | quoted => exact ⟨_, rfl⟩
      · obtain ⟨js, rfl, hjs⟩ := denotes_list h
        obtain ⟨vs, hvs⟩ := texts?_denotes (fun _ _ => pattern_or_bare) hjs hl fun t ht => hbare (.inr ⟨l, t, rfl, ht⟩)
        have hread : patterns? (.list js) = some vs := hvs
        exact ⟨_, by rw [set?, hread]; rfl⟩
  | scope =>
      obtain ⟨l, rfl⟩ := hfits
      obtain ⟨js, rfl, -⟩ := denotes_object h
      exact ⟨_, rfl⟩
  | links =>
      obtain ⟨l, rfl, hl⟩ := hfits
      obtain ⟨js, rfl, hjs⟩ := denotes_list h
      obtain ⟨vs, hvs⟩ := texts?_denotes (fun _ _ => text_or_bare) hjs hl fun t ht => hbare ⟨l, t, rfl, ht⟩
      exact ⟨_, by rw [set?, texts?, hvs]; rfl⟩
  | clean =>
      obtain rfl : e = .bare (flagWord s.clean) := hfits
      exact ⟨_, by rw [set?, flag?_denotes h]; rfl⟩
  | hash =>
      obtain rfl : e = .bare (flagWord s.hash) := hfits
      exact ⟨_, by rw [set?, flag?_denotes h]; rfl⟩

theorem ofFields?_denotes {l : List (List Char × Written)} {js : List (String × Json)} {fs seen : List Field} (s₀ : Settings)
    (h : Json.Denotes (.fields l) (.object js))
    (hfits : List.Forall₂ (fun p f => (saying? p.1).bind Field.ofName? = some f ∧ f.Fits p.2 s) l fs) (hnodup : fs.Nodup)
    (hseen : ∀ f ∈ fs, f ∉ seen) (hbare : ∀ p ∈ l, ∀ f, (saying? p.1).bind Field.ofName? = some f → ¬f.TakesBare p.2) :
    ∃ s₁, ofFields? seen s₀ js = some s₁ := by
  induction hfits generalizing js seen s₀ with
  | nil =>
      cases h
      exact ⟨s₀, rfl⟩
  | @cons p f l fs hp _ ih =>
      cases h with
      | fields hsaid hd hl =>
          obtain ⟨hfresh, hnodup⟩ := List.nodup_cons.1 hnodup
          have hname := hp.1
          rw [hsaid, Option.bind_some] at hname
          obtain ⟨s₁, hs₁⟩ := set?_denotes s₀ hd hp.2 (hbare _ List.mem_cons_self f hp.1)
          have hnew : f ∉ seen := hseen f List.mem_cons_self
          have hseen' : ∀ g ∈ fs, g ∉ f :: seen := fun g hg hmem => by
            rcases List.mem_cons.1 hmem with rfl | hmem
            · exact hfresh hg
            · exact hseen g (List.mem_cons_of_mem f hg) hmem
          obtain ⟨s₂, hs₂⟩ := ih s₁ hl hnodup hseen' fun q hq => hbare q (List.mem_cons_of_mem _ hq)
          exact ⟨s₂, by simp [ofFields?, hname, hnew, hs₁, hs₂]⟩

/-- Fields whose values are of the right kind throughout are settings as JSON too. -/
theorem ofJson?_of_loose {j : Json} (h : Json.Denotes (.item e) j) (hloose : Loose e s) (hbare : ¬HoldsBare e) :
    ∃ s₁, ofJson? j = some s₁ := by
  obtain ⟨l, fs, rfl, hnodup, hfits, -⟩ := hloose
  obtain ⟨js, rfl, hjs⟩ := denotes_object h
  exact ofFields?_denotes none hjs hfits hnodup nofun fun p hp f hf htakes => hbare ⟨l, p.1, p.2, f, rfl, hp, hf, htakes⟩

/-- What is settings as JSON is just that. A document that is settings only as YAML is an object of fields even so: something
stands bare in it where a text is wanted, or it is too much for the JSON reader. All other documents are told to be of the
wrong format. -/
theorem parse_document {content : String} (h : Json.IsDocument content e) :
    (∀ s, (Json.read? content).bind ofJson? = some s → parse content = .ok s) ∧
    (∀ s, parse content = .ok s → (Json.read? content).bind ofJson? = some s ∨
      Loose e s ∧ (HoldsBare e ∨ Json.read? content = .none)) ∧
    ∀ t, parse content = .error t → ∃ u, t = .settings (.format u) := by
  refine ⟨fun s hs => by rw [parse, hs], fun s hs => ?_, fun t ht => ?_⟩
  · rw [parse] at hs
    split at hs
    · next s' hjson =>
        cases hs
        exact .inl hjson
    · next hjson =>
        split at hs
        · next s' hyaml =>
            cases hs
            have hloose := ofDocument_loose h hyaml
            refine .inr ⟨hloose, ?_⟩
            cases hread : Json.read? content with
            | none => exact .inr rfl
            | some j =>
                refine .inl (Classical.byContradiction fun hbare => ?_)
                obtain ⟨s₁, hs₁⟩ := ofJson?_of_loose (Json.read?_denotes h hread) hloose hbare
                rw [hread, Option.bind_some, hs₁] at hjson
                cases hjson
        · cases hs
  · rw [parse] at ht
    split at ht
    · cases ht
    · split at ht
      · cases ht
      · cases ht
        exact ⟨_, rfl⟩

/-- A number for a path. -/
def numberForPath : String := "\x7b\"source\": 5\x7d"

def numberForPathWritten : Written := .object [(['s', 'o', 'u', 'r', 'c', 'e'], .bare ['5'])]

theorem numberForPath_isDocument : Json.IsDocument numberForPath numberForPathWritten := by
  have hchars : numberForPath.toList = '{' :: '"' :: ['s', 'o', 'u', 'r', 'c', 'e'] ++ '"' :: ':' :: ' ' :: ['5'] ++ ['}'] := by
    decide +kernel
  have hnone (r : List Char) : Json.Gap r r := ⟨[], rfl, nofun⟩
  have hspace (r : List Char) : Json.Gap (' ' :: r) r := ⟨[' '], rfl, List.all_eq_true.1 (by decide)⟩
  have hbody : Json.IsBody ['s', 'o', 'u', 'r', 'c', 'e'] := by
    repeat refine .char (by decide) (by decide) (by decide) ?_
    exact .nil
  have hdigits : Json.IsDigits ['5'] := ⟨by decide, List.all_eq_true.1 (by decide)⟩
  have hfive : IsBare ['5'] := .inr ⟨[], ['5'], [], [], rfl, by decide, .inr ⟨hdigits, by decide⟩, .inl rfl, .inl rfl⟩
  rw [Json.IsDocument, hchars]
  exact .item (hnone _) (.object (.lastField (.field (hnone _) hbody (hnone _)
    (.item (hspace _) (.bare hfive) (hnone _))))) (hnone _)

theorem numberForPath_not_json : (Json.read? numberForPath).bind ofJson? = .none := by
  have h : ((Json.read? numberForPath).bind ofJson?).isNone = true := by decide +kernel
  simpa using h

theorem numberForPath_parse : ∃ s, parse numberForPath = .ok s ∧ s.source = some ⟨"5"⟩ := by
  have h : (parse numberForPath).toOption.map (·.source) = some (some ⟨"5"⟩) := by decide +kernel
  cases hs : parse numberForPath with
  | error t => simp [hs, Except.toOption] at h
  | ok s => exact ⟨s, rfl, by simpa [hs, Except.toOption] using h⟩

theorem numberForPath_accepted : Json.IsDocument numberForPath numberForPathWritten ∧
    (Json.read? numberForPath).bind ofJson? = .none ∧ ∃ s, parse numberForPath = .ok s ∧ s.source = some ⟨"5"⟩ :=
  ⟨numberForPath_isDocument, numberForPath_not_json, numberForPath_parse⟩

theorem numberForPath_loose : Json.IsDocument numberForPath numberForPathWritten ∧
    ∃ s, parse numberForPath = .ok s ∧ Loose numberForPathWritten s ∧ HoldsBare numberForPathWritten := by
  obtain ⟨s, hs, -⟩ := numberForPath_parse
  refine ⟨numberForPath_isDocument, s, hs, ?_⟩
  have hreadable : (Json.read? numberForPath).isSome = true := by decide +kernel
  rcases (parse_document numberForPath_isDocument).2.1 s hs with hjson | ⟨hloose, hbare | hunread⟩
  · rw [numberForPath_not_json] at hjson
    cases hjson
  · exact ⟨hloose, hbare⟩
  · rw [hunread] at hreadable
    cases hreadable

end SiteTree.Settings
