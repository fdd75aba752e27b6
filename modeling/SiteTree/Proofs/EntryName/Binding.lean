import SiteTree.Proofs.EntryName
import SiteTree.Proofs.Text.Split

/-!
What a loop binds. A dotted path is looked up segment by segment, so that going on from what a path leads
to is the same as looking up the longer path. A binding is one segment: it holds the item of its turn, and
every path that starts with another segment leads where it led before.
-/

namespace SiteTree

open Text

namespace Scope

variable {scope : Scope} {value found : Json} {segments : List String} {segment key path : String} {i : Nat}

/-- How a position in a list may be written: some digits, perhaps after a plus sign, that stand for a number of at
most 64 bits. -/
def Indexes (segment : String) (i : Nat) : Prop :=
  ∃ digits, (segment.toList = digits ∨ segment.toList = '+' :: digits) ∧ digits ≠ [] ∧
    (∀ c ∈ digits, c.isDigit = true) ∧ Nat.ofDigitChars 10 digits 0 = i ∧ i < Number.twoTo 64

/-- Where a list of segments leads: from an object to one of its fields, from a list to one of its items, and from
any other value nowhere. -/
inductive Descends : Json → List String → Json → Prop
  | here (value : Json) : Descends value [] value
  | field {fields segment segments value found} (hget : Table.get? segment fields = some value)
      (hrest : Descends value segments found) : Descends (.object fields) (segment :: segments) found
  | item {items segment segments i value found} (hi : Indexes segment i) (hget : items[i]? = some value)
      (hrest : Descends value segments found) : Descends (.list items) (segment :: segments) found

theorem decimal?_eq_some {digits : List Char} : decimal? digits = some i ↔
    digits ≠ [] ∧ (∀ c ∈ digits, c.isDigit = true) ∧ Nat.ofDigitChars 10 digits 0 = i := by
  have hvalue : digits.foldl (fun n c => n * 10 + (c.toNat - '0'.toNat)) 0 = Nat.ofDigitChars 10 digits 0 := by
    simp only [Nat.ofDigitChars, Nat.mul_comm]
  rw [decimal?, hvalue]
  split
  · next h =>
    refine iff_of_false nofun ?_
    rintro ⟨hne, hall, -⟩
    simp only [Bool.or_eq_true, List.isEmpty_iff, Bool.not_eq_true', List.all_eq_false] at h
    rcases h with h | ⟨c, hc, hd⟩
    · exact hne h
    · exact hd (hall c hc)
  · next h =>
    simp only [Bool.or_eq_true, List.isEmpty_iff, Bool.not_eq_true', not_or, Bool.not_eq_false, List.all_eq_true] at h
    rw [Option.some.injEq]
    exact ⟨fun hi => ⟨h.1, h.2, hi⟩, fun hi => hi.2.2⟩

theorem position?_eq_some : position? segment = some i ↔ Indexes segment i := by
  have hdecimal : ∀ digits : List Char, (decimal? digits).filter (· < Number.twoTo 64) = some i ↔
      digits ≠ [] ∧ (∀ c ∈ digits, c.isDigit = true) ∧ Nat.ofDigitChars 10 digits 0 = i ∧ i < Number.twoTo 64 := by
    intro digits
    rw [Option.filter_eq_some_iff, decimal?_eq_some, decide_eq_true_eq, and_assoc, and_assoc]
  rw [position?]
  split
  · next r hr =>
    rw [hdecimal]
    constructor
    · exact fun h => ⟨r, .inr hr, h⟩
    · rintro ⟨digits, hdigits | hdigits, hne, hall, hvalue⟩
      · rw [hr] at hdigits
        exact absurd (hall '+' (hdigits ▸ List.mem_cons_self)) (by decide)
      · obtain rfl : r = digits := (List.cons.inj (hr.symm.trans hdigits)).2
        exact ⟨hne, hall, hvalue⟩
  · next hplain =>
    rw [hdecimal]
    constructor
    · exact fun h => ⟨segment.toList, .inl rfl, h⟩
    · rintro ⟨digits, hdigits | hdigits, h⟩
      · rwa [hdigits]
      · exact absurd hdigits (hplain digits)

theorem indexes_repr (h : i < Number.twoTo 64) : Indexes (toString i) i := by
  have htext : (toString i).toList = Nat.toDigits 10 i := Nat.toList_repr
  exact ⟨Nat.toDigits 10 i, .inl htext, Nat.toDigits_ne_nil,
    fun c hc => Nat.isDigit_of_mem_toDigits (by decide) (by decide) hc, Nat.ofDigitChars_ten_toDigits, h⟩

theorem descend?_eq_some : descend? value segments = some found ↔ Descends value segments found := by
  induction segments generalizing value with
  | nil =>
      rw [descend?, Option.some.injEq]
      constructor
      · rintro rfl
        exact .here value
      · rintro ⟨⟩
        rfl
  | cons segment segments ih =>
      simp only [descend?, Option.bind_eq_some_iff, ih]
      constructor
      · rintro ⟨next, hselect, hrest⟩
        cases value with
        | object fields => exact .field hselect hrest
        | list items =>
            obtain ⟨i, hi, hget⟩ := Option.bind_eq_some_iff.1 hselect
            exact .item (position?_eq_some.1 hi) hget hrest
        | _ => cases hselect
      · rintro (_ | ⟨hget, hrest⟩ | ⟨hi, hget, hrest⟩)
        · exact ⟨_, hget, hrest⟩
        · exact ⟨_, Option.bind_eq_some_iff.2 ⟨_, position?_eq_some.2 hi, hget⟩, hrest⟩

theorem splitString_dotted (u r : String) : splitString '.' (u ++ "." ++ r) = splitString '.' u ++ splitString '.' r := by
  have htext : (u ++ "." ++ r).toList = u.toList ++ '.' :: r.toList := by simp
  rw [splitString, htext, split_append, List.map_append]
  rfl

theorem splitString_ne_nil (path : String) : splitString '.' path ≠ [] := by
  simp [splitString, split_ne_nil]

theorem splitString_single (h : '.' ∉ key.toList) : splitString '.' key = [key] := by
  rw [splitString, split_of_not_mem h]
  simp

/-- A longer path goes on from what the shorter one leads to. -/
theorem lookup?_dotted (scope : Scope) (u r : String) :
    scope.lookup? (u ++ "." ++ r) = (scope.lookup? u).bind fun value => descend? value (splitString '.' r) := by
  rw [lookup?, lookup?, splitString_dotted]
  cases hu : splitString '.' u with
  | nil => exact absurd hu (splitString_ne_nil u)
  | cons s t => simp only [List.cons_append, descend?_append, Option.bind_assoc]

theorem lookup?_dotted_iff (scope : Scope) (u r : String) : scope.lookup? (u ++ "." ++ r) = some found ↔
    ∃ value, scope.lookup? u = some value ∧ Descends value (splitString '.' r) found := by
  simp only [lookup?_dotted, Option.bind_eq_some_iff, descend?_eq_some]

theorem lookup?_extend_self (h : '.' ∉ key.toList) (scope : Scope) (value : Json) :
    (scope.extend key value).lookup? key = some value := by
  rw [lookup?, splitString_single h]
  simp [get?_extend, descend?]

/-- A path that starts with another segment leads where it led before. -/
theorem lookup?_extend_apart (h : (splitString '.' path).head? ≠ some key) (scope : Scope) (value : Json) :
    (scope.extend key value).lookup? path = scope.lookup? path := by
  rw [lookup?, lookup?]
  cases hp : splitString '.' path with
  | nil => rfl
  | cons s t =>
      rw [hp] at h
      have hne : key ≠ s := fun he => h (by rw [he]; rfl)
      simp [get?_extend, hne]

/-- Of two values that are bound to one key the later one counts. -/
theorem lookup?_extend_again (scope : Scope) (key : String) (value later : Json) (path : String) :
    ((scope.extend key value).extend key later).lookup? path = (scope.extend key later).lookup? path := by
  rw [lookup?, lookup?]
  cases splitString '.' path with
  | nil => rfl
  | cons s t =>
      by_cases hs : key = s <;> simp [get?_extend, hs]

theorem lookup?_item {items : List Json} (h : scope.lookup? path = some (.list items)) (hi : i < items.length)
    (hlen : items.length < Number.twoTo 64) : scope.lookup? (path ++ "." ++ toString i) = some items[i] := by
  have hindex : Indexes (toString i) i := indexes_repr (hi.trans hlen)
  have hsingle : splitString '.' (toString i) = [toString i] := by
    apply splitString_single
    intro hdot
    obtain ⟨digits, hdigits, -, hall, -⟩ := hindex
    rcases hdigits with htext | htext
    · exact absurd (hall '.' (htext ▸ hdot)) (by decide)
    · rw [htext] at hdot
      rcases List.mem_cons.1 hdot with hplus | hdot
      · exact absurd hplus (by decide)
      · exact absurd (hall '.' hdot) (by decide)
  refine (lookup?_dotted_iff scope path (toString i)).2 ⟨.list items, h, ?_⟩
  rw [hsingle]
  exact .item hindex (List.getElem?_eq_getElem hi) (.here _)

end Scope

namespace EntryName

variable {scope : Scope} {name : String} {loop : Loop} {items : List Json} {i : Nat}

theorem not_dot_binding (h : loop? name = some loop) : '.' ∉ loop.binding.toList := by
  obtain ⟨l, -, rfl⟩ := loop?_iff.1 h
  have hbinding := l.isBinding
  rw [LoopText.toLoop, String.toList_ofList]
  cases hb : l.binding with
  | nil => nofun
  | cons c r =>
      rw [hb] at hbinding
      rw [List.mem_cons, not_or]
      refine ⟨?_, fun hr => absurd (hbinding.2 '.' hr) (by decide +kernel)⟩
      rintro rfl
      exact absurd hbinding.1 (by decide)

/-- The scope of one turn of a loop: the binding is the item at the position, what goes on from the binding goes on
from the item in its list, and all that starts with another segment is as it was outside. -/
structure BindsItem (outer inner : Scope) (loop : Loop) (i : Nat) (item : Json) : Prop where
  bound : inner.lookup? loop.binding = some item
  below : ∀ r, inner.lookup? (loop.binding ++ "." ++ r) = outer.lookup? (loop.path ++ "." ++ toString i ++ "." ++ r)
  apart : ∀ path, (splitString '.' path).head? ≠ some loop.binding → inner.lookup? path = outer.lookup? path

theorem bindsItem_extend (h : loop? name = some loop) (hitems : scope.lookup? loop.path = some (.list items))
    (hlen : items.length < Number.twoTo 64) (hi : i < items.length) :
    BindsItem scope (scope.extend loop.binding items[i]) loop i items[i] := by
  have hself := Scope.lookup?_extend_self (not_dot_binding h) scope items[i]
  refine ⟨hself, fun r => ?_, fun path hpath => Scope.lookup?_extend_apart hpath scope items[i]⟩
  rw [Scope.lookup?_dotted, Scope.lookup?_dotted, hself, Scope.lookup?_item hitems hi hlen]

theorem expand_turns (h : loop? name = some loop) (hitems : scope.lookup? loop.path = some (.list items)) :
    expand name scope = .ok (items.map fun item => ⟨.loop, name, scope.extend loop.binding item⟩) := by
  rw [expand_loop h]
  by_cases hne : items = []
  · subst hne
    rw [runLoop, hitems]
    rfl
  · exact runLoop_items hitems hne

/-- A loop over a list is one expansion for each item, and the scope of each binds just its item: also in a loop
inside of it that binds the same name again, where the outer item is out of sight. What a longer path leads to is
found by going on from what the shorter one leads to, in all scopes. -/
theorem expand_binds_items (scope : Scope) :
    (∀ name loop items, loop? name = some loop → scope.lookup? loop.path = some (.list items) →
      items.length < Number.twoTo 64 →
      ∃ turns, expand name scope = .ok turns ∧ turns.length = items.length ∧
        ∀ i (hi : i < items.length), ∃ turn, turns[i]? = some turn ∧ BindsItem scope turn.scope loop i items[i] ∧
          ∀ inner nested entries, loop? inner = some nested → nested.binding = loop.binding →
            turn.scope.lookup? nested.path = some (.list entries) → entries.length < Number.twoTo 64 →
            ∃ rounds, expand inner turn.scope = .ok rounds ∧ rounds.length = entries.length ∧
              ∀ j (hj : j < entries.length), ∃ round, rounds[j]? = some round ∧
                BindsItem turn.scope round.scope nested j entries[j] ∧
                ∀ path, round.scope.lookup? path = (scope.extend loop.binding entries[j]).lookup? path) ∧
    ∀ u r found, scope.lookup? (u ++ "." ++ r) = some found ↔
      ∃ value, scope.lookup? u = some value ∧ Scope.Descends value (splitString '.' r) found := by
  refine ⟨fun name loop items h hitems hlen => ?turns, fun u r found => Scope.lookup?_dotted_iff scope u r⟩
  refine ⟨_, expand_turns h hitems, List.length_map _, fun i hi => ?_⟩
  refine ⟨⟨.loop, name, scope.extend loop.binding items[i]⟩, by simp [hi], bindsItem_extend h hitems hlen hi, ?_⟩
  intro inner nested entries hinner hbinding hentries hlen'
  refine ⟨_, expand_turns hinner hentries, List.length_map _, fun j hj => ?_⟩
  refine ⟨⟨.loop, inner, (scope.extend loop.binding items[i]).extend nested.binding entries[j]⟩, by simp [hj],
    bindsItem_extend hinner hentries hlen' hj, fun path => ?_⟩
  rw [hbinding]
  exact Scope.lookup?_extend_again scope loop.binding items[i] entries[j] path

/-- Two shelves of books, under a name that the loops bind again. -/
def twoShelves : Scope :=
  ⟨[("x", .text "outside"), ("xs", .list [.object [("ys", .list [.int 1])], .object [("ys", .list [.int 2, .int 3])]])]⟩

theorem twoShelves_bound : ∃ turns turn, expand "[x of xs]" twoShelves = .ok turns ∧ turns[1]? = some turn ∧
    turn.scope.lookup? ("x" ++ "." ++ "ys.+01") = some (.int 3) ∧
    ∃ rounds round, expand "[x of x.ys]" turn.scope = .ok rounds ∧ rounds[1]? = some round ∧
      round.scope.lookup? "x" = some (.int 3) := by
  obtain ⟨turns, hturns, -, hturn⟩ := (expand_binds_items twoShelves).1 "[x of xs]" ⟨"x", "xs"⟩ _ (by decide +kernel) rfl
    (by decide)
  obtain ⟨turn, hget, hbinds, hnested⟩ := hturn 1 (by decide)
  have hlist : turn.scope.lookup? ("x" ++ "." ++ "ys") = some (.list [.int 2, .int 3]) := (hbinds.below "ys").trans rfl
  obtain ⟨rounds, hrounds, -, hround⟩ := hnested "[x of x.ys]" ⟨"x", "x.ys"⟩ _ (by decide +kernel) rfl hlist (by decide)
  obtain ⟨round, hget', hbinds', -⟩ := hround 1 (by decide)
  exact ⟨turns, turn, hturns, hget, (hbinds.below "ys.+01").trans rfl, rounds, round, hrounds, hget', hbinds'.bound⟩

end EntryName

end SiteTree
