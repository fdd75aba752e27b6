import SiteTree.Proofs.EntryName.Filling
import SiteTree.Proofs.EntryName.Loop

/-!
What a name expands to. A name that has the form of a loop stands for the items of its list, one that
only holds a loop is refused, one with tokens is filled, and every other name stands for itself.
-/

namespace SiteTree.EntryName

open Text

variable {s : List Char} {name : String} {scope : Scope} {loop : Loop} {value : Json} {items : List Json}

theorem holdsLoop_eq_false (h : ∀ (u : List Char) (l : LoopText) (v : List Char), s ≠ u ++ l.chars ++ v) :
    holdsLoop s = false := by
  rw [Bool.eq_false_iff]
  intro hholds
  obtain ⟨u, l, v, hs⟩ := holdsLoop_iff.1 hholds
  exact h u l v hs

/-- Where there is a loop there is a token. -/
theorem holdsLoop_of_untokened (h : (pieces s).any Piece.isToken = false) : holdsLoop s = false := by
  apply holdsLoop_eq_false
  rintro u l v rfl
  rw [any_isToken.2 ⟨u, l.body, v, by simp [LoopText.chars], l.isBody⟩] at h
  cases h

/-- A literal name stands for itself, whatever the scope is. -/
theorem expand_literal (h : form name = .literal) (scope : Scope) : expand name scope = .ok [⟨.literal, name, scope⟩] := by
  have hform := h
  rw [form] at hform
  split at hform
  · cases hform
  next hloop =>
  split at hform
  · cases hform
  next htokens =>
  have hnone : loop? name = none := by simpa using hloop
  have hholds : holdsLoop name.toList = false := holdsLoop_of_untokened (by simpa using htokens)
  rw [expand, hnone, hholds, h]
  rfl

theorem runLoop_pruned (h : ∀ value, scope.lookup? loop.path = some value → value.isTruthy = false) :
    runLoop name loop scope = .ok [] := by
  rw [runLoop]
  cases hv : scope.lookup? loop.path with
  | none => rfl
  | some value =>
      have hfalse := h value hv
      simp [hfalse]

theorem runLoop_items (h : scope.lookup? loop.path = some (.list items)) (hne : items ≠ []) :
    runLoop name loop scope = .ok (items.map fun item => ⟨.loop, name, scope.extend loop.binding item⟩) := by
  rw [runLoop, h]
  simp [Json.isTruthy, hne]

theorem runLoop_refused (h : scope.lookup? loop.path = some value) (htrue : value.isTruthy = true)
    (hlist : ∀ items, value ≠ .list items) : runLoop name loop scope = .error (.loop name (.notList loop.path)) := by
  rw [runLoop, h]
  cases value with
  | list items => exact absurd rfl (hlist items)
  | _ => simp [htrue]

theorem expand_loop (h : loop? name = some loop) : expand name scope = runLoop name loop scope := by
  rw [expand, h]

/-- A name that holds a loop and is none is refused. -/
theorem expand_partOfName (h : loop? name = none) (hholds : holdsLoop name.toList = true) :
    expand name scope = .error (.loop name .partOfName) := by
  rw [expand, h]
  simp [hholds]

theorem expand_tokens (hloop : loop? name = none) (hholds : holdsLoop name.toList = false)
    (htokens : (pieces name.toList).any Piece.isToken = true) :
    expand name scope = (fill name scope).map fun text => [⟨.tokens, text, scope⟩] := by
  have hform : form name = .tokens := by
    rw [form, hloop, htokens]
    rfl
  rw [expand, hloop, hholds, hform]
  cases fill name scope <;> rfl

theorem expand_tokens_ok (h : expand name scope = (fill name scope).map fun text => [⟨.tokens, text, scope⟩])
    (text : String) : expand name scope = .ok [⟨.tokens, text, scope⟩] ↔ fill name scope = .ok text := by
  rw [h]
  cases fill name scope <;> simp [Except.map]

theorem loop?_eq_none (h : ∀ l : LoopText, name.toList ≠ l.chars) : loop? name = none := by
  rw [Option.eq_none_iff_forall_ne_some]
  intro loop hloop
  obtain ⟨l, hl, -⟩ := loop?_iff.1 hloop
  exact h l hl

theorem loop?_whole {l : LoopText} (h : name.toList = l.chars) : loop? name = some l.toLoop := loop?_iff.2 ⟨l, h, rfl⟩

/-- Every name is of one of four kinds, and its kind decides what it expands to. A name that has the form
of a loop, which it has in one way only, is pruned if the path leads to nothing or to something falsy,
stands for the items if it leads to a list that has some, and is refused otherwise. A name that only
holds a loop is refused in every scope. A name with tokens is filled just if all of them lead to values,
and otherwise refused for the first that does not. Every other name is literal. -/
theorem expand_decides (name : String) :
    (∀ loop, loop? name = some loop ↔ ∃ l : LoopText, name.toList = l.chars ∧ loop = l.toLoop) ∧
    (∀ l : LoopText, name.toList = l.chars → (∀ l' : LoopText, name.toList = l'.chars → l' = l) ∧ ∀ scope,
      ((∀ value, scope.lookup? (String.ofList l.path) = some value → value.isTruthy = false) →
        expand name scope = .ok []) ∧
      (∀ items, scope.lookup? (String.ofList l.path) = some (.list items) → items ≠ [] → expand name scope =
        .ok (items.map fun item => ⟨.loop, name, scope.extend (String.ofList l.binding) item⟩)) ∧
      ∀ value, scope.lookup? (String.ofList l.path) = some value → value.isTruthy = true →
        (∀ items, value ≠ .list items) →
        expand name scope = .error (.loop name (.notList (String.ofList l.path)))) ∧
    ((∀ l : LoopText, name.toList ≠ l.chars) → (∃ (u : List Char) (l : LoopText) (v : List Char),
        name.toList = u ++ l.chars ++ v) → ∀ scope, expand name scope = .error (.loop name .partOfName)) ∧
    ((∀ (u : List Char) (l : LoopText) (v : List Char), name.toList ≠ u ++ l.chars ++ v) →
        (∃ pre x post, HasToken name.toList pre x post) → ∀ scope,
      (∀ text, expand name scope = .ok [⟨.tokens, text, scope⟩] ↔ fill name scope = .ok text) ∧
      ((∃ text, expand name scope = .ok [⟨.tokens, text, scope⟩]) ↔
        ∀ pre x post, HasToken name.toList pre x post → Resolves scope x) ∧
      ((¬ ∀ pre x post, HasToken name.toList pre x post → Resolves scope x) →
        ∃ pre x post, FirstUnresolved scope name.toList pre x post ∧
          expand name scope = .error (.unresolved name (String.ofList (trim x))))) ∧
    ((∀ pre x post, ¬ HasToken name.toList pre x post) →
      ∀ scope, expand name scope = .ok [⟨.literal, name, scope⟩]) := by
  refine ⟨fun loop => loop?_iff, ?whole, ?part, ?tokens, ?literal⟩
  case whole =>
    intro l hl
    refine ⟨fun l' hl' => LoopText.chars_inj (hl'.symm.trans hl), fun scope => ?_⟩
    have hexpand : expand name scope = runLoop name ⟨String.ofList l.binding, String.ofList l.path⟩ scope :=
      expand_loop (loop?_whole hl)
    refine ⟨fun h => ?_, fun items h hne => ?_, fun value h htrue hlist => ?_⟩
    · exact hexpand.trans (runLoop_pruned h)
    · exact hexpand.trans (runLoop_items h hne)
    · exact hexpand.trans (runLoop_refused h htrue hlist)
  case part =>
    intro hnone hholds scope
    exact expand_partOfName (loop?_eq_none hnone) (holdsLoop_iff.2 hholds)
  case tokens =>
    intro hnone htokens scope
    have hloop : loop? name = none := loop?_eq_none fun l hl => hnone [] l [] (by simpa using hl)
    have hexpand : expand name scope = _ := expand_tokens hloop (holdsLoop_eq_false hnone) (any_isToken.2 htokens)
    have hok := expand_tokens_ok hexpand
    refine ⟨hok, by simp only [hok, fill_iff], fun hsome => ?_⟩
    obtain ⟨pre, x, post, hfirst, hfill⟩ := fill_first hsome
    exact ⟨pre, x, post, hfirst, by rw [hexpand, hfill]; rfl⟩
  case literal =>
    intro hnone scope
    have htokens : ¬ (pieces name.toList).any Piece.isToken = true := by
      rw [any_isToken]
      rintro ⟨pre, x, post, h⟩
      exact hnone pre x post h
    have hloop : loop? name = none := loop?_eq_none fun l hl =>
      hnone [] l.body [] ⟨by rw [hl, LoopText.chars]; rfl, l.isBody⟩
    apply expand_literal
    rw [form, hloop, if_neg htokens]
    rfl

/-- A loop that binds the word that stands before its path. -/
def wordLoop : LoopText where
  lead := [' ']
  binding := ['o', 'f']
  beforeOf := [' ']
  afterOf := [' ', ' ']
  path := ['a', '.', 'b']
  trail := []
  lead_blank := List.all_eq_true.1 rfl
  isBinding := ⟨rfl, List.all_eq_true.1 rfl⟩
  beforeOf_run := ⟨List.cons_ne_nil _ _, List.all_eq_true.1 rfl⟩
  afterOf_run := ⟨List.cons_ne_nil _ _, List.all_eq_true.1 rfl⟩
  path_run := ⟨List.cons_ne_nil _ _, List.all_eq_true.1 rfl⟩
  trail_blank := List.forall_mem_nil _

theorem wordLoop_items : expand "[ of of  a.b]" ⟨[("a", .object [("b", .list [.int 1, .int 2])])]⟩ =
    .ok ([Json.int 1, Json.int 2].map fun item => ⟨.loop, "[ of of  a.b]",
      Scope.extend ⟨[("a", .object [("b", .list [.int 1, .int 2])])]⟩ "of" item⟩) := by
  obtain ⟨-, hloop, -⟩ := expand_decides "[ of of  a.b]"
  exact ((hloop wordLoop (by decide)).2 ⟨[("a", .object [("b", .list [.int 1, .int 2])])]⟩).2.1 [.int 1, .int 2]
    (by rfl) (by simp)

end SiteTree.EntryName
