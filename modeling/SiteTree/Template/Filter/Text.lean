import SiteTree.Template.Escape
import SiteTree.Template.Given
import SiteTree.Text.Blank
import SiteTree.Text.Casing

/-!
Filters on text.
-/

namespace SiteTree.Template.Filter

open Text

def isPunctuation (c : Char) : Bool :=
  0x21 ≤ c.toNat && c.toNat ≤ 0x7E && !c.isAlphanum

/-- Every word starts with a capital; `starts` tells whether the next letter starts one. -/
def titled (starts : Bool) : List Char → List Char
  | [] => []
  | c :: r =>
    if isPunctuation c || isBlank c then c :: titled true r
    else (if starts then upperChar c else lowerChar c) ++ titled false r

def capitalized : List Char → List Char
  | [] => []
  | c :: r => upperChar c ++ lower r

def letters : Nat → List Char → List (List Char)
  | 0, s => [s]
  | _ + 1, [] => [[]]
  | n + 1, c :: r => [c] :: letters n r

def piecesAt (sep : List Char) : Nat → List Char → List (List Char)
  | 0, s => [s]
  | n + 1, s => match cutAt? sep s with
    | none => [s]
    | some (before, after) => before :: piecesAt sep n after

/-- The pieces of a text that is cut at a separator at most so many times. -/
def pieces (sep : List Char) (cuts : Nat) (s : List Char) : List (List Char) :=
  if !sep.isEmpty then piecesAt sep cuts s
  else match cuts with
    | 0 => [s]
    | n + 1 => [] :: letters n s

def allPieces (sep s : List Char) : List (List Char) := pieces sep (s.length + 2) s

def blankPieces : Nat → List Char → List (List Char)
  | 0, s => [s]
  | n + 1, s => match s.span (!isBlank ·) with
    | (before, _ :: after) => before :: blankPieces n after
    | (before, []) => [before]

def words (s : List Char) : List (List Char) :=
  (blankPieces s.length s).filter (!·.isEmpty)

def ofPieces (ps : List (List Char)) : Value := .list (ps.map fun p => .plain (String.ofList p))

def replace (s old new : String) : String :=
  new.intercalate ((allPieces old.toList s.toList).map String.ofList)

def splitText (s : String) (sep : Option String) (cuts : Option Int) : Value :=
  let cuts := cuts.filter (0 ≤ ·)
  match sep, cuts with
  | none, none => ofPieces (words s.toList)
  | none, some n => ofPieces (blankPieces n.toNat s.toList)
  | some sep, none => ofPieces (allPieces sep.toList s.toList)
  | some sep, some n => ofPieces (pieces sep.toList n.toNat s.toList)

def dropReturn (s : List Char) : List Char := if s.getLast? = some '\r' then s.dropLast else s

def linesOf (s : List Char) : List (List Char) :=
  let ls := split '\n' s
  let full := ls.dropLast.map dropReturn
  match ls.getLast? with
  | some [] => full
  | some last => full ++ [last]
  | none => full

def trimmed (chars : Option String) (s : List Char) : List Char :=
  match chars with
  | none => trim s
  | some set => dropEnd (set.toList.contains ·) (s.dropWhile (set.toList.contains ·))

def dropBreak (s : List Char) : List Char :=
  dropReturn (if s.getLast? = some '\n' then s.dropLast else s)

/-- Moves lines to the right, the first one and empty ones only if asked to. -/
def indented (width : Nat) (first blank : Bool) (s : List Char) : List Char :=
  let margin := List.replicate width ' '
  let move (line : List Char) : List Char :=
    if line.isEmpty && !blank then line else margin ++ line
  let ls := split '\n' (dropBreak s)
  let moved := match ls with
    | [] => []
    | l :: r => (if first then move l else l) :: r.map move
  dropBreak (moved.flatMap (· ++ ['\n']))

def escape (mode : Escaping) (v : Value) : Outcome Value :=
  if v.isSafe then .ok v
  else do
    let mode := if mode = .off then .html else mode
    .ok (.text (← mode.write v) true)

/-- A table becomes a list of settings for an address. -/
def address (v : Value) : String :=
  match v with
  | .map fields =>
    "&".intercalate (fields.map fun p => addressText p.1.display ++ "=" ++ addressText p.2.display)
  | .undefined | .nothing => ""
  | v => addressText v.display

def scriptValue (indent : Option Value) (v : Value) : Outcome Value :=
  match v.toJson? with
  | none => refuse .badOperation "cannot serialize to JSON"
  | some j => do
    let width ← match indent with
      | none => pure none
      | some (.bool b) => pure (if b then some 2 else none)
      | some w => some <$> toCount w
    let s := match width with
      | none => j.print
      | some w => j.printLines w 0
    .ok (.text (Value.scriptText s) true)

end SiteTree.Template.Filter
