import SiteTree.Table
import SiteTree.Text.Split

/-!
Quoted references to files, and their replacement by the new names of those files.
-/

namespace SiteTree.Asset

open Text

/-- The new path for each old one. -/
abbrev Renames := Table String

/-- A text is cut into references that are known and the characters between them. -/
inductive Piece where
  | char (c : Char)
  | reference (new : List Char)
  deriving DecidableEq, Repr

/-- A reference is written with double quotes and an explicit dot, whatever it was before. -/
def Piece.chars : Piece → List Char
  | .char c => [c]
  | .reference new => '"' :: '.' :: '/' :: new ++ ['"']

def Piece.isReference : Piece → Bool
  | .char _ => false
  | .reference _ => true

def isQuote (c : Char) : Bool := c = '"' || c = '\''

/-- What stands between a quote and the next one of its kind on the same line, and the rest. -/
def quoted? (quote : Char) (s : List Char) : Option (List Char × List Char) :=
  match s.dropWhile fun c => c ≠ quote && c ≠ '\n' with
  | c :: r => if c = quote then some (s.takeWhile fun c => c ≠ quote && c ≠ '\n', r) else none
  | [] => none

theorem quoted?_length {quote : Char} {s body r : List Char} (h : quoted? quote s = some (body, r)) :
    r.length < s.length := by
  have hs := (List.takeWhile_append_dropWhile (p := fun c => c ≠ quote && c ≠ '\n') (l := s))
  unfold quoted? at h
  split at h
  next c t ht =>
    split at h
    next =>
      obtain ⟨-, rfl⟩ : _ ∧ t = r := by simpa using h
      have := congrArg List.length hs
      rw [ht] at this
      simp at this
      omega
    next => cases h
  next => cases h

/-- The path in a reference, without one leading slash or dot and slash. -/
def bare : List Char → List Char
  | '.' :: '/' :: r => r
  | '/' :: r => r
  | s => s

/-- A quote that opens no known reference is passed over alone, so it hides nothing after it. -/
def pieces (renames : Renames) : List Char → List Piece
  | [] => []
  | c :: r =>
    if isQuote c then
      match _h : quoted? c r with
      | some (body, rest) =>
        match Table.get? (String.ofList (bare body)) renames with
        | some new => .reference new.toList :: pieces renames rest
        | none => .char c :: pieces renames r
      | none => .char c :: pieces renames r
    else .char c :: pieces renames r
termination_by s => s.length
decreasing_by
  · have := quoted?_length ‹_›
    simp
    omega
  all_goals simp

/-- The text with its references replaced, unless it has none. -/
def redirect? (content : String) (renames : Renames) : Option String :=
  let ps := pieces renames content.toList
  if ps.any Piece.isReference then some (String.ofList (ps.flatMap Piece.chars)) else none

def redirected (content : String) (renames : Renames) : String :=
  (redirect? content renames).getD content

end SiteTree.Asset
