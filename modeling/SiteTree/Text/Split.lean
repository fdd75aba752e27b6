/-!
Cutting text at a separator and gluing it together again.
-/

namespace SiteTree.Text

/-- The stretches between the separators, in order; a text without separator is one stretch. -/
def split (sep : Char) : List Char → List (List Char)
  | [] => [[]]
  | c :: r =>
    if c = sep then [] :: split sep r
    else match split sep r with
      | [] => [[c]]
      | s :: t => (c :: s) :: t

def glue (sep : Char) : List (List Char) → List Char
  | [] => []
  | [s] => s
  | s :: t => s ++ sep :: glue sep t

theorem split_ne_nil (sep : Char) (s : List Char) : split sep s ≠ [] := by
  cases s with
  | nil => simp [split]
  | cons c r =>
    rw [split]
    split
    · simp
    · split <;> simp

theorem glue_cons (sep : Char) (s : List Char) {t : List (List Char)} (h : t ≠ []) :
    glue sep (s :: t) = s ++ sep :: glue sep t := by
  cases t with
  | nil => exact absurd rfl h
  | cons a b => rfl

theorem glue_split (sep : Char) (s : List Char) : glue sep (split sep s) = s := by
  induction s with
  | nil => rfl
  | cons c r ih =>
    rw [split]
    split
    next h => rw [glue_cons sep _ (split_ne_nil sep r), ih, h]; rfl
    next h =>
      split
      next hs => exact absurd hs (split_ne_nil sep r)
      next a t hs =>
        rw [hs] at ih
        cases t with
        | nil => rw [← ih]; rfl
        | cons b t => rw [← ih]; rfl

def splitString (sep : Char) (s : String) : List String := (split sep s.toList).map String.ofList

/-- Everything before the last separator and everything after it. -/
def splitLast? (sep : Char) (s : List Char) : Option (List Char × List Char) :=
  match s.reverse.span (· ≠ sep) with
  | (_, []) => none
  | (after, _ :: before) => some (before.reverse, after.reverse)

/-- Everything before the first separator and everything after it. -/
def splitFirst? (sep : Char) (s : List Char) : Option (List Char × List Char) :=
  match s.span (· ≠ sep) with
  | (_, []) => none
  | (before, _ :: after) => some (before, after)

def dropStart? : List Char → List Char → Option (List Char)
  | [], s => some s
  | _ :: _, [] => none
  | p :: ps, c :: s => if p = c then dropStart? ps s else none

theorem dropStart?_eq_some {p s r : List Char} : dropStart? p s = some r ↔ s = p ++ r := by
  induction p generalizing s with
  | nil => simp [dropStart?, eq_comm]
  | cons a p ih =>
    cases s with
    | nil => simp [dropStart?]
    | cons c s =>
      by_cases h : a = c
      · simp [dropStart?, h, ih]
      · simp [dropStart?, h, eq_comm]

/-- Everything before the first place where the given stretch stands, and everything after it. -/
def cutAt? (part : List Char) : List Char → Option (List Char × List Char)
  | [] => if part.isEmpty then some ([], []) else none
  | c :: r => match dropStart? part (c :: r) with
    | some after => some ([], after)
    | none => (cutAt? part r).map fun (before, after) => (c :: before, after)

theorem cutAt?_append {part s before after : List Char} (h : cutAt? part s = some (before, after)) :
    s = before ++ part ++ after := by
  induction s generalizing before with
  | nil =>
    rw [cutAt?] at h
    split at h
    next hp => simp_all
    next => cases h
  | cons c r ih =>
    rw [cutAt?] at h
    split at h
    next a ha =>
      cases h
      simpa using dropStart?_eq_some.1 ha
    next =>
      obtain ⟨⟨b, a⟩, hb, he⟩ := Option.map_eq_some_iff.1 h
      cases he
      simp [ih hb]

def holds (part : List Char) : List Char → Bool
  | [] => part.isEmpty
  | c :: r => (dropStart? part (c :: r)).isSome || holds part r

end SiteTree.Text
