import SiteTree.Table

/-!
Dynamic values: what a scope holds and what configuration files are read into.
-/

namespace SiteTree

/-- Whole numbers of at most 64 bits stay whole; every other number is a floating point number. -/
inductive Json where
  | null
  | bool (b : Bool)
  | int (n : Int)
  | real (f : Float)
  | text (s : String)
  | list (items : List Json)
  | object (fields : List (String × Json))
  deriving Repr, Inhabited

namespace Json

mutual

/-- Sorts the fields of every object and drops all but the last of equal keys. -/
def normal : Json → Json
  | .list items => .list (normalItems items)
  | .object fields => .object (Table.ofPairs (normalFields fields))
  | j => j

def normalItems : List Json → List Json
  | [] => []
  | j :: r => normal j :: normalItems r

def normalFields : List (String × Json) → List (String × Json)
  | [] => []
  | (k, j) :: r => (k, normal j) :: normalFields r

end

def field? (key : String) : Json → Option Json
  | .object fields => Table.get? key fields
  | _ => none

/-- Missing, false, zero and what has nothing in it; an object always counts. -/
def isTruthy : Json → Bool
  | .null => false
  | .bool b => b
  | .int n => n != 0
  | .real f => f != 0.0
  | .text s => !s.isEmpty
  | .list items => !items.isEmpty
  | .object _ => true

end Json

end SiteTree
