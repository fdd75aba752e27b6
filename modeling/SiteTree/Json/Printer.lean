import SiteTree.Json.Basic
import SiteTree.Number.Shortest

/-!
The compact text of a value: no blanks, and every character as itself that may stand so.
-/

namespace SiteTree.Json

def hexDigit (n : Nat) : Char := Nat.digitChar n

def escapeChar (c : Char) : List Char :=
  if c = '"' then ['\\', '"']
  else if c = '\\' then ['\\', '\\']
  else if c = '\n' then ['\\', 'n']
  else if c = '\r' then ['\\', 'r']
  else if c = '\t' then ['\\', 't']
  else if c.toNat = 8 then ['\\', 'b']
  else if c.toNat = 12 then ['\\', 'f']
  else if c.toNat < 32 then
    ['\\', 'u', '0', '0', hexDigit (c.toNat / 16), hexDigit (c.toNat % 16)]
  else [c]

def quote (s : String) : String := String.ofList ('"' :: s.toList.flatMap escapeChar ++ ['"'])

/-- Only finite numbers have a text. -/
def numberText (f : Float) : String :=
  if f.isFinite then Number.floatText .compact f else "null"

mutual

def print : Json → String
  | .null => "null"
  | .bool b => if b then "true" else "false"
  | .int n => toString n
  | .real f => numberText f
  | .text s => quote s
  | .list items => "[" ++ ",".intercalate (printItems items) ++ "]"
  | .object fields => "\x7b" ++ ",".intercalate (printFields fields) ++ "\x7d"

def printItems : List Json → List String
  | [] => []
  | j :: r => print j :: printItems r

def printFields : List (String × Json) → List String
  | [] => []
  | (k, j) :: r => (quote k ++ ":" ++ print j) :: printFields r

end

def margin (width : Nat) : String := String.ofList (List.replicate width ' ')

def lines (width depth : Nat) (parts : List String) : String :=
  let inner := margin (width * (depth + 1))
  "\n" ++ ",\n".intercalate (parts.map (inner ++ ·)) ++ "\n" ++ margin (width * depth)

mutual

/-- Every item and field on a line of its own, so many spaces further in than the whole. -/
def printLines (width depth : Nat) : Json → String
  | .list [] => "[]"
  | .list items => "[" ++ lines width depth (printItemLines width (depth + 1) items) ++ "]"
  | .object [] => "\x7b\x7d"
  | .object fields =>
    "\x7b" ++ lines width depth (printFieldLines width (depth + 1) fields) ++ "\x7d"
  | j => print j

def printItemLines (width depth : Nat) : List Json → List String
  | [] => []
  | j :: r => printLines width depth j :: printItemLines width depth r

def printFieldLines (width depth : Nat) : List (String × Json) → List String
  | [] => []
  | (k, j) :: r => (quote k ++ ": " ++ printLines width depth j) :: printFieldLines width depth r

end

/-- The text that stands for a scalar in a name: a string is itself. -/
def scalarText? : Json → Option String
  | .text s => some s
  | .int n => some (toString n)
  | .real f => some (numberText f)
  | .bool b => some (if b then "true" else "false")
  | _ => none

end SiteTree.Json
