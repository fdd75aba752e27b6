import Mathlib.Tactic.Choose
import SiteTree.Proofs.EntryName.Token

/-!
What the tokens of a name are replaced by. Filling a name puts the value of each token in its place,
all at once. If some token has no value, the first that has none is told.
-/

namespace SiteTree.EntryName

open Text

variable {s u v x pre post first : List Char} {name path text : String} {scope : Scope}
  {ps before after : List Piece} {cuts : List (List Char × List Char)} {value : List Char → String}

/-- How a string, a number or a truth value is written in a name. -/
inductive Written : Json → String → Prop where
  | text (s : String) : Written (.text s) s
  | int (n : Int) : Written (.int n) (Json.print (.int n))
  | real (f : Float) : Written (.real f) (Json.print (.real f))
  | true : Written (.bool true) "true"
  | false : Written (.bool false) "false"

/-- The trimmed path between the brackets leads to a value that is written so. -/
def Fills (scope : Scope) (x : List Char) (text : String) : Prop :=
  ∃ json, scope.lookup? (String.ofList (trim x)) = some json ∧ Written json text

theorem written_iff {json : Json} : Written json text ↔ Json.scalarText? json = some text := by
  constructor
  · rintro (_ | _ | _ | _ | _) <;> rfl
  · intro h
    cases json with
    | text => cases h; exact .text _
    | int => cases h; exact .int _
    | real => cases h; exact .real _
    | bool b =>
        cases b with
        | true => cases h; exact .true
        | false => cases h; exact .false
    | null | list | object => cases h

theorem fills_iff : Fills scope x text ↔ tokenValue scope x = .ok text.toList := by
  have hvalue : Fills scope x text ↔ (scope.lookup? (String.ofList (trim x))).bind Json.scalarText? = some text := by
    simp only [Fills, written_iff, Option.bind_eq_some_iff]
  rw [hvalue, tokenValue]
  cases (scope.lookup? (String.ofList (trim x))).bind Json.scalarText? with
  | none => simp
  | some v => simp [String.toList_inj]

/-- The token has a value that can be written. -/
def Resolves (scope : Scope) (x : List Char) : Prop := ∃ text, Fills scope x text

theorem tokenValue_error (h : ¬ Resolves scope x) :
    tokenValue scope x = .error (String.ofList (trim x)) := by
  rw [tokenValue]
  cases hv : (scope.lookup? (String.ofList (trim x))).bind Json.scalarText? with
  | none => rfl
  | some v =>
      refine absurd ⟨v, fills_iff.2 ?_⟩ h
      rw [tokenValue, hv]

/-- A piece with the value of each token in its place. -/
def Piece.filled (value : List Char → String) : Piece → List Char
  | .char c => [c]
  | .token x => (value x).toList

theorem fillPieces_ok (h : ∀ x, .token x ∈ ps → Fills scope x (value x)) :
    fillPieces scope ps = .ok (ps.flatMap (Piece.filled value)) := by
  induction ps with
  | nil => rfl
  | cons p ps ih =>
      have hrest := ih fun x hx => h x (List.mem_cons_of_mem p hx)
      cases p with
      | char c =>
          rw [fillPieces, hrest]
          rfl
      | token x =>
          rw [fillPieces, fills_iff.1 (h x List.mem_cons_self), hrest]
          rfl

/-- The first token without a value is told, whatever comes after it. -/
theorem fillPieces_error (hbefore : ∀ y, .token y ∈ before → Resolves scope y) (hx : ¬ Resolves scope x) :
    fillPieces scope (before ++ .token x :: after) = .error (String.ofList (trim x)) := by
  induction before with
  | nil =>
      rw [List.nil_append, fillPieces, tokenValue_error hx]
      rfl
  | cons p before ih =>
      have hrest := ih fun y hy => hbefore y (List.mem_cons_of_mem p hy)
      rw [List.cons_append]
      cases p with
      | char c =>
          rw [fillPieces, hrest]
          rfl
      | token y =>
          obtain ⟨text, htext⟩ := hbefore y List.mem_cons_self
          rw [fillPieces, fills_iff.1 htext, hrest]
          rfl

theorem resolve_or_first (scope : Scope) (ps : List Piece) : (∀ x, .token x ∈ ps → Resolves scope x) ∨
    ∃ before x after, ps = before ++ .token x :: after ∧ (∀ y, .token y ∈ before → Resolves scope y) ∧
      ¬ Resolves scope x := by
  induction ps with
  | nil => exact .inl nofun
  | cons p ps ih =>
      have hcons : (∀ x, p = .token x → Resolves scope x) → ∀ qs : List Piece,
          (∀ x, .token x ∈ qs → Resolves scope x) → ∀ x, .token x ∈ p :: qs → Resolves scope x :=
        fun hp qs hqs x hx => (List.mem_cons.1 hx).elim (fun h => hp x h.symm) (hqs x)
      by_cases hp : ∀ x, p = .token x → Resolves scope x
      · rcases ih with hall | ⟨before, x, after, rfl, hbefore, hx⟩
        · exact .inl (hcons hp ps hall)
        · exact .inr ⟨p :: before, x, after, rfl, hcons hp before hbefore, hx⟩
      · obtain ⟨x, hnot⟩ := not_forall.1 hp
        obtain ⟨rfl, hx⟩ := Classical.not_imp.1 hnot
        exact .inr ⟨[], x, ps, rfl, nofun, hx⟩

theorem resolves_of_ok (h : fillPieces scope ps = .ok u) : ∀ x, .token x ∈ ps → Resolves scope x := by
  rcases resolve_or_first scope ps with hall | ⟨before, x, after, rfl, hbefore, hx⟩
  · exact hall
  · rw [fillPieces_error hbefore hx] at h
    cases h

theorem exists_value (scope : Scope) : ∃ value : List Char → String, ∀ x, Resolves scope x → Fills scope x (value x) := by
  have hsome : ∀ x, ∃ text, Resolves scope x → Fills scope x text := fun x => by
    by_cases hx : Resolves scope x
    · exact hx.imp fun text htext _ => htext
    · exact ⟨"", fun hc => absurd hc hx⟩
  choose value hvalue using hsome
  exact ⟨value, hvalue⟩

theorem fillPieces_append {qs : List Piece} (h : fillPieces scope ps = .ok u) (h' : fillPieces scope qs = .ok v) :
    fillPieces scope (ps ++ qs) = .ok (u ++ v) := by
  obtain ⟨value, hvalue⟩ := exists_value scope
  have hps : ∀ x, .token x ∈ ps → Fills scope x (value x) := fun x hx => hvalue x (resolves_of_ok h x hx)
  have hqs : ∀ x, .token x ∈ qs → Fills scope x (value x) := fun x hx => hvalue x (resolves_of_ok h' x hx)
  rw [fillPieces_ok hps] at h
  rw [fillPieces_ok hqs] at h'
  cases h
  cases h'
  rw [fillPieces_ok fun x hx => (List.mem_append.1 hx).elim (hps x) (hqs x), List.flatMap_append]

theorem fill_eq : fill name scope = .ok text ↔ fillPieces scope (pieces name.toList) = .ok text.toList := by
  rw [fill]
  cases fillPieces scope (pieces name.toList) with
  | error path => simp
  | ok s => simp [← String.toList_inj]

theorem fill_error (h : fillPieces scope (pieces name.toList) = .error path) :
    fill name scope = .error (.unresolved name path) := by
  rw [fill, h]

/-- A token that leads to no value, when all tokens before it do. -/
def FirstUnresolved (scope : Scope) (s pre x post : List Char) : Prop :=
  HasToken s pre x post ∧ ¬ Resolves scope x ∧
    ∀ pre' x' post', HasToken s pre' x' post' → pre'.length < pre.length → Resolves scope x'

theorem among_before {pre' post' y : List Char} (h : Among (before ++ .token x :: after) pre' y post')
    (hlt : pre'.length < (before.flatMap Piece.chars).length) : .token y ∈ before := by
  obtain ⟨before', after', hps, rfl, -⟩ := h
  rcases List.append_eq_append_iff.1 hps with ⟨tail, rfl, -⟩ | ⟨tail, rfl, htail⟩
  · rw [List.flatMap_append, List.length_append] at hlt
    omega
  · cases tail with
    | nil => simp at hlt
    | cons p tail =>
        obtain ⟨rfl, -⟩ := List.cons.inj htail
        simp

/-- What the tokens of a name lead to, said of its pieces. -/
theorem pieces_resolve_iff : (∀ x, .token x ∈ pieces s → Resolves scope x) ↔
    ∀ pre x post, HasToken s pre x post → Resolves scope x := by
  constructor
  · intro h pre x post htoken
    obtain ⟨before, after, hps, -⟩ := hasToken_iff.1 htoken
    exact h x (by simp [hps])
  · intro h x hx
    obtain ⟨before, after, hps⟩ := List.append_of_mem hx
    exact h _ x _ (hasToken_iff.2 ⟨before, after, hps, rfl, rfl⟩)

theorem fill_ok (h : ∀ x, .token x ∈ pieces name.toList → Resolves scope x) : ∃ value : List Char → String,
    (∀ x, .token x ∈ pieces name.toList → Fills scope x (value x)) ∧
      fill name scope = .ok (String.ofList ((pieces name.toList).flatMap (Piece.filled value))) := by
  obtain ⟨value, hvalue⟩ := exists_value scope
  have htokens : ∀ x, .token x ∈ pieces name.toList → Fills scope x (value x) := fun x hx => hvalue x (h x hx)
  refine ⟨value, htokens, ?_⟩
  rw [fill_eq, fillPieces_ok htokens, String.toList_ofList]

theorem fill_refused (h : ¬ ∀ x, .token x ∈ pieces name.toList → Resolves scope x) : ∃ before x after,
    pieces name.toList = before ++ .token x :: after ∧ (∀ y, .token y ∈ before → Resolves scope y) ∧
      ¬ Resolves scope x ∧ fill name scope = .error (.unresolved name (String.ofList (trim x))) := by
  obtain ⟨before, x, after, hps, hbefore, hx⟩ := (resolve_or_first scope (pieces name.toList)).resolve_left h
  refine ⟨before, x, after, hps, hbefore, hx, ?_⟩
  apply fill_error
  rw [hps, fillPieces_error hbefore hx]

/-- A name is filled just if all its tokens lead to values. -/
theorem fill_iff : (∃ text, fill name scope = .ok text) ↔ ∀ pre x post, HasToken name.toList pre x post → Resolves scope x := by
  rw [← pieces_resolve_iff]
  constructor
  · rintro ⟨text, h⟩
    exact resolves_of_ok (fill_eq.1 h)
  · intro h
    obtain ⟨value, -, hfill⟩ := fill_ok h
    exact ⟨_, hfill⟩

theorem fill_first (h : ¬ ∀ pre x post, HasToken name.toList pre x post → Resolves scope x) :
    ∃ pre x post, FirstUnresolved scope name.toList pre x post ∧
      fill name scope = .error (.unresolved name (String.ofList (trim x))) := by
  rw [← pieces_resolve_iff] at h
  obtain ⟨before, x, after, hps, hbefore, hx, hfill⟩ := fill_refused h
  refine ⟨_, x, _, ⟨hasToken_iff.2 ⟨before, after, hps, rfl, rfl⟩, hx, ?_⟩, hfill⟩
  intro pre' y post' htoken hlt
  rw [hasToken_iff, hps] at htoken
  exact hbefore y (among_before htoken hlt)

/-- A literal stretch, and others after it, each behind what is made of the stretch it is paired with. -/
def weave (f : List Char → List Char) (first : List Char) : List (List Char × List Char) → List Char
  | [] => first
  | (x, lit) :: cuts => first ++ f x ++ weave f lit cuts

def brackets (x : List Char) : List Char := '[' :: x ++ [']']

/-- The pieces of a name that is cut so. -/
def cutPieces (first : List Char) : List (List Char × List Char) → List Piece
  | [] => first.map .char
  | (x, lit) :: cuts => first.map .char ++ .token x :: cutPieces lit cuts

theorem exists_cutPieces (ps : List Piece) : ∃ first cuts, ps = cutPieces first cuts := by
  induction ps with
  | nil => exact ⟨[], [], rfl⟩
  | cons p ps ih =>
      obtain ⟨first, cuts, rfl⟩ := ih
      cases p with
      | char c =>
          refine ⟨c :: first, cuts, ?_⟩
          cases cuts <;> rfl
      | token x => exact ⟨[], (x, first) :: cuts, rfl⟩

theorem flatMap_cutPieces {f : Piece → List Char} (hf : ∀ c, f (.char c) = [c]) (first : List Char)
    (cuts : List (List Char × List Char)) :
    (cutPieces first cuts).flatMap f = weave (fun x => f (.token x)) first cuts := by
  have hlit : ∀ lit : List Char, (lit.map Piece.char).flatMap f = lit := fun lit => by
    simp [List.flatMap_map, hf]
  induction cuts generalizing first with
  | nil => exact hlit first
  | cons cut cuts ih => rw [cutPieces, List.flatMap_append, List.flatMap_cons, ih, hlit, weave, List.append_assoc]

/-- A token comes after the characters before it. -/
theorem literal_split (lit : List Char) : lit.map .char ++ ps = before ++ .token x :: after ↔
    ∃ before', before = lit.map .char ++ before' ∧ ps = before' ++ .token x :: after := by
  induction lit generalizing before with
  | nil => simp
  | cons c lit ih =>
      constructor
      · intro h
        cases before with
        | nil => cases (List.cons.inj h).1
        | cons p before =>
            obtain ⟨rfl, hrest⟩ := List.cons.inj h
            obtain ⟨before', rfl, rfl⟩ := ih.1 hrest
            exact ⟨before', rfl, rfl⟩
      · rintro ⟨before', rfl, rfl⟩
        simp

theorem cutPieces_split : cutPieces first cuts = before ++ .token x :: after ↔ ∃ cuts₁ lit cuts₂,
    cuts = cuts₁ ++ (x, lit) :: cuts₂ ∧ before = cutPieces first cuts₁ ∧ after = cutPieces lit cuts₂ := by
  induction cuts generalizing first before with
  | nil =>
      refine iff_of_false (fun h => ?_) (by simp)
      have hmem : .token x ∈ first.map Piece.char := by
        rw [← cutPieces, h]
        simp
      simp at hmem
  | cons cut cuts ih =>
      obtain ⟨y, l⟩ := cut
      rw [cutPieces, literal_split]
      constructor
      · rintro ⟨before', rfl, h⟩
        cases before' with
        | nil =>
            obtain ⟨he, rfl⟩ := List.cons.inj h
            obtain rfl := Piece.token.inj he
            exact ⟨[], l, cuts, rfl, by simp [cutPieces], rfl⟩
        | cons p before' =>
            obtain ⟨rfl, hrest⟩ := List.cons.inj h
            obtain ⟨cuts₁, lit, cuts₂, rfl, rfl, rfl⟩ := ih.1 hrest
            exact ⟨(y, l) :: cuts₁, lit, cuts₂, rfl, rfl, rfl⟩
      · rintro ⟨cuts₁, lit, cuts₂, hcuts, rfl, rfl⟩
        cases cuts₁ with
        | nil =>
            cases hcuts
            exact ⟨[], by simp [cutPieces], rfl⟩
        | cons cut cuts₁ =>
            obtain ⟨rfl, rfl⟩ := List.cons.inj hcuts
            exact ⟨.token y :: cutPieces l cuts₁, rfl, congrArg _ (ih.2 ⟨cuts₁, lit, cuts₂, rfl, rfl, rfl⟩)⟩

theorem among_cutPieces : Among (cutPieces first cuts) pre x post ↔ ∃ cuts₁ lit cuts₂,
    cuts = cuts₁ ++ (x, lit) :: cuts₂ ∧ pre = weave brackets first cuts₁ ∧ post = weave brackets lit cuts₂ := by
  have hchars := flatMap_cutPieces (f := Piece.chars) fun _ => rfl
  constructor
  · rintro ⟨before, after, hps, rfl, rfl⟩
    obtain ⟨cuts₁, lit, cuts₂, rfl, rfl, rfl⟩ := cutPieces_split.1 hps
    exact ⟨cuts₁, lit, cuts₂, rfl, hchars first cuts₁, hchars lit cuts₂⟩
  · rintro ⟨cuts₁, lit, cuts₂, rfl, rfl, rfl⟩
    exact ⟨_, _, cutPieces_split.2 ⟨cuts₁, lit, cuts₂, rfl, rfl, rfl⟩, (hchars first cuts₁).symm, (hchars lit cuts₂).symm⟩

theorem token_mem_cutPieces : .token x ∈ cutPieces first cuts ↔ ∃ cut ∈ cuts, cut.1 = x := by
  constructor
  · intro h
    obtain ⟨before, after, hsplit⟩ := List.append_of_mem h
    obtain ⟨cuts₁, lit, cuts₂, rfl, -⟩ := cutPieces_split.1 hsplit
    exact ⟨(x, lit), by simp, rfl⟩
  · rintro ⟨cut, hcut, rfl⟩
    obtain ⟨cuts₁, cuts₂, rfl⟩ := List.append_of_mem hcut
    rw [cutPieces_split.2 ⟨cuts₁, cut.2, cuts₂, rfl, rfl, rfl⟩]
    simp

theorem forall_cutPieces {p : List Char → Prop} :
    (∀ x, .token x ∈ cutPieces first cuts → p x) ↔ ∀ cut ∈ cuts, p cut.1 := by
  simp [token_mem_cutPieces]

theorem fill_cut (hps : pieces name.toList = cutPieces first cuts) (hall : ∀ cut ∈ cuts, Resolves scope cut.1) :
    ∃ value : List Char → String, (∀ cut ∈ cuts, Fills scope cut.1 (value cut.1)) ∧
      fill name scope = .ok (String.ofList (weave (fun x => (value x).toList) first cuts)) := by
  rw [← forall_cutPieces, ← hps] at hall
  obtain ⟨value, hvalue, hfill⟩ := fill_ok hall
  rw [hps] at hvalue hfill
  rw [flatMap_cutPieces fun _ => rfl] at hfill
  exact ⟨value, forall_cutPieces.1 hvalue, hfill⟩

theorem fill_cut_error (hps : pieces name.toList = cutPieces first cuts)
    (hsome : ¬ ∀ cut ∈ cuts, Resolves scope cut.1) : ∃ before x lit after, cuts = before ++ (x, lit) :: after ∧
      (∀ cut ∈ before, Resolves scope cut.1) ∧ ¬ Resolves scope x ∧
      fill name scope = .error (.unresolved name (String.ofList (trim x))) := by
  rw [← forall_cutPieces, ← hps] at hsome
  obtain ⟨before, x, after, hsplit, hbefore, hx, hfill⟩ := fill_refused hsome
  obtain ⟨cuts₁, lit, cuts₂, rfl, rfl, rfl⟩ := cutPieces_split.1 (hps.symm.trans hsplit)
  exact ⟨cuts₁, x, lit, cuts₂, rfl, forall_cutPieces.1 hbefore, hx, hfill⟩

/-- The tokens of a name are pairwise apart and cut it into literal stretches. If each of them leads to
a string, a number or a truth value, the name is filled with the texts of these in their places, all at
once; otherwise the first that does not is told. So a name may be filled in two parts, if both parts can
be filled and no token goes over the cut. -/
theorem fill_simultaneous (name : String) (scope : Scope) :
    (∀ pre x post pre' x' post', HasToken name.toList pre x post → HasToken name.toList pre' x' post' →
      pre.length ≤ pre'.length →
      (pre = pre' ∧ x = x' ∧ post = post') ∨ pre.length + x.length + 2 ≤ pre'.length) ∧
    (∃ first cuts, name.toList = weave brackets first cuts ∧
      (∀ pre x post, HasToken name.toList pre x post ↔ ∃ before lit after, cuts = before ++ (x, lit) :: after ∧
        pre = weave brackets first before ∧ post = weave brackets lit after) ∧
      ((∀ cut ∈ cuts, Resolves scope cut.1) → ∃ value : List Char → String,
        (∀ cut ∈ cuts, Fills scope cut.1 (value cut.1)) ∧
        fill name scope = .ok (String.ofList (weave (fun x => (value x).toList) first cuts))) ∧
      ((¬ ∀ cut ∈ cuts, Resolves scope cut.1) → ∃ before x lit after, cuts = before ++ (x, lit) :: after ∧
        (∀ cut ∈ before, Resolves scope cut.1) ∧ ¬ Resolves scope x ∧
        fill name scope = .error (.unresolved name (String.ofList (trim x))))) ∧
    ∀ a b u v, fill a scope = .ok u → fill b scope = .ok v → NoneAcross a.toList b.toList →
      fill (a ++ b) scope = .ok (u ++ v) := by
  refine ⟨fun pre x post pre' x' post' h h' hle => h.apart h' hle, ?_, fun a b u v hu hv hnone => ?_⟩
  · obtain ⟨first, cuts, hps⟩ := exists_cutPieces (pieces name.toList)
    refine ⟨first, cuts, ?_, fun pre x post => ?_, fun hall => ?_, fun hsome => ?_⟩
    · rw [← flatMap_chars_pieces name.toList, hps]
      exact flatMap_cutPieces (fun _ => rfl) first cuts
    · rw [hasToken_iff, hps, among_cutPieces]
    · exact fill_cut hps hall
    · exact fill_cut_error hps hsome
  · rw [fill_eq] at hu hv ⊢
    rw [String.toList_append, pieces_append hnone, fillPieces_append hu hv, String.toList_append]

/-- The value of the first token looks like the second one. -/
theorem bracketedValue_kept : fill "[a]-[ n ]" ⟨[("a", .text "[n]"), ("n", .int 1)]⟩ = .ok "[n]-1" := by
  have hparts : fill "[a]" ⟨[("a", .text "[n]"), ("n", .int 1)]⟩ = .ok "[n]" ∧
      fill "-[ n ]" ⟨[("a", .text "[n]"), ("n", .int 1)]⟩ = .ok "-1" := by
    simp only [fill_eq]
    decide +kernel
  have hnone : NoneAcross "[a]".toList "-[ n ]".toList := by
    intro pre x post h hlt
    have hfirst : HasToken ("[a]".toList ++ "-[ n ]".toList) [] ['a'] "-[ n ]".toList := ⟨rfl, by simp, by decide, by decide⟩
    rcases hfirst.apart h (Nat.zero_le _) with ⟨rfl, rfl, rfl⟩ | hle
    · decide
    · exact absurd (Nat.lt_of_le_of_lt hle hlt) (by decide)
  exact (fill_simultaneous "" ⟨[("a", .text "[n]"), ("n", .int 1)]⟩).2.2 "[a]" "-[ n ]" "[n]" "-1" hparts.1 hparts.2 hnone

end SiteTree.EntryName
