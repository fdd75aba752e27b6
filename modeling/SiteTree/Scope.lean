import SiteTree.Json.Basic
import SiteTree.Number.Power
import SiteTree.Text.Split

/-!
Scopes: the values that names and pages may refer to. A dotted path selects a value in a scope,
and extending a scope binds one more name without touching the scope it started from.
-/

namespace SiteTree

structure Scope where
  fields : Table Json
  deriving Inhabited

namespace Scope

open Text Number

def empty : Scope := ⟨[]⟩

def ofPairs (pairs : List (String × Json)) : Scope := ⟨Table.ofPairs pairs⟩

/-- Only objects are scopes; nothing at all is the empty scope. -/
def ofJson? : Json → Option Scope
  | .object fields => some ⟨fields⟩
  | .null => some empty
  | _ => none

def get? (scope : Scope) (key : String) : Option Json := Table.get? key scope.fields

def extend (scope : Scope) (key : String) (value : Json) : Scope :=
  ⟨Table.insert key value scope.fields⟩

theorem get?_extend (scope : Scope) (key k : String) (value : Json) :
    (scope.extend key value).get? k = if key = k then some value else scope.get? k :=
  Table.get?_insert key k value scope.fields

def decimal? (digits : List Char) : Option Nat :=
  if digits.isEmpty || !digits.all Char.isDigit then none
  else some (digits.foldl (fun n c => n * 10 + (c.toNat - '0'.toNat)) 0)

/-- A position in a list: digits, perhaps after a plus sign, below `2 ^ 64`. -/
def position? (segment : String) : Option Nat :=
  let digits := match segment.toList with
    | '+' :: r => r
    | s => s
  (decimal? digits).filter (· < twoTo 64)

/-- One segment selects a field of an object or an item of a list. -/
def select? (value : Json) (segment : String) : Option Json :=
  match value with
  | .object fields => Table.get? segment fields
  | .list items => (position? segment).bind fun i => items[i]?
  | _ => none

def descend? (value : Json) : List String → Option Json
  | [] => some value
  | s :: r => (select? value s).bind fun v => descend? v r

theorem descend?_append (value : Json) (s t : List String) :
    descend? value (s ++ t) = (descend? value s).bind fun v => descend? v t := by
  induction s generalizing value with
  | nil => rfl
  | cons a s ih => cases h : select? value a <;> simp [descend?, h, ih]

def lookup? (scope : Scope) (path : String) : Option Json :=
  match splitString '.' path with
  | [] => none
  | s :: r => (scope.get? s).bind fun v => descend? v r

end Scope

end SiteTree
