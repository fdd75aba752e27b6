import SiteTree.Template.Value
import SiteTree.Text.Printable

/-!
The texts of values: as they are written into a page, as they look inside of other values, and
laid out over several lines.
-/

namespace SiteTree.Template.Value

open Number Text

/-- Numbers that are not finite have names. -/
def realText (layout : Layout) (f : Float) : String :=
  if f.isNaN then "NaN"
  else if f.isInf then (if f < 0.0 then "-inf" else "inf")
  else floatText layout f

def boolText (b : Bool) : String := if b then "True" else "False"

def commas (parts : List String) : String := ", ".intercalate parts

mutual

def shown : Value → String
  | .undefined => "undefined"
  | .nothing => "None"
  | .bool b => boolText b
  | .whole n => toString n
  | .real f => realText .plain f
  | .text s _ => quoted s
  | .list items => "[" ++ commas (shownItems items) ++ "]"
  | .map fields => "\x7b" ++ commas (shownFields fields) ++ "\x7d"
  | .group key items => "[" ++ shown key ++ ", [" ++ commas (shownItems items) ++ "]]"
  | .imported _ written => written
  | .space _ => "<namespace>"
  | .loop _ => "<loop>"
  | .callable name _ => "<macro " ++ name ++ ">"
  | .builtin name => "<function " ++ name ++ ">"

def shownItems : List Value → List String
  | [] => []
  | v :: r => shown v :: shownItems r

def shownFields : List (Value × Value) → List String
  | [] => []
  | (k, v) :: r => (shown k ++ ": " ++ shown v) :: shownFields r

end

/-- How a value is written into a page, but for escapes. Missing values write nothing. -/
def display : Value → String
  | .undefined => ""
  | .real f => realText .positional f
  | .text s _ => s
  | v => shown v

def margin (depth : Nat) : String := String.ofList (List.replicate (4 * depth) ' ')

mutual

/-- A value with every part of it on a line of its own, further in than the whole. -/
def laidOut (depth : Nat) : Value → String
  | .list [] => "[]"
  | .list items => "[\n" ++ String.join (laidOutItems (depth + 1) items) ++ margin depth ++ "]"
  | .map [] => "\x7b\x7d"
  | .map fields =>
    "\x7b\n" ++ String.join (laidOutFields (depth + 1) fields) ++ margin depth ++ "\x7d"
  | v => shown v

def laidOutItems (depth : Nat) : List Value → List String
  | [] => []
  | v :: r => (margin depth ++ laidOut depth v ++ ",\n") :: laidOutItems depth r

def laidOutFields (depth : Nat) : List (Value × Value) → List String
  | [] => []
  | (k, v) :: r =>
    (margin depth ++ shown k ++ ": " ++ laidOut depth v ++ ",\n") :: laidOutFields depth r

end

end SiteTree.Template.Value
