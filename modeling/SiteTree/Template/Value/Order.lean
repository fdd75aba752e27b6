import SiteTree.Template.Value

/-!
When two values are equal, how values are ordered, and what is found in them.
-/

namespace SiteTree.Template.Value

open Number

/-- Values of different kinds are in the order of their kinds. -/
def rank : Value → Nat
  | .undefined => 0
  | .nothing => 1
  | .bool _ => 2
  | .whole _ | .real _ => 3
  | .text .. => 4
  | .list _ | .group .. => 5
  | .map _ | .space _ => 6
  | .imported .. | .loop _ | .callable .. | .builtin _ => 7

/-- The place of a floating point number among all of them, with minus zero below zero. -/
def realPlace (f : Float) : Int :=
  let n := f.toBits.toNat
  if n < twoTo 63 then n else (twoTo 63 : Int) - 1 - n

def compareScalars (a b : Value) : Ordering :=
  match operands? a b with
  | some (.whole m n) => compare m n
  | some (.real f g) => compare (realPlace f) (realPlace g)
  | some (.text s t) => compare s t
  | none => .eq

mutual

/-- A total order. -/
def order : Value → Value → Ordering
  | .list a, .list b => orderLists a b
  | .group key items, .group key' items' => (order key key').then (orderLists items items')
  | .map a, .map b => orderFields a b
  | a, b => (compare a.rank b.rank).then (compareScalars a b)

def orderLists : List Value → List Value → Ordering
  | [], [] => .eq
  | [], _ :: _ => .lt
  | _ :: _, [] => .gt
  | a :: r, b :: t => (order a b).then (orderLists r t)

def orderFields : List (Value × Value) → List (Value × Value) → Ordering
  | [], [] => .eq
  | [], _ :: _ => .lt
  | _ :: _, [] => .gt
  | (k, a) :: r, (l, b) :: t => ((order k l).then (order a b)).then (orderFields r t)

end

def get? (key : Value) (fields : List (Value × Value)) : Option Value :=
  (fields.find? fun p => order p.1 key == .eq).map (·.2)

def insert (key value : Value) : List (Value × Value) → List (Value × Value)
  | [] => [(key, value)]
  | (k, v) :: r => match order key k with
    | .eq => (k, value) :: r
    | .lt => (key, value) :: (k, v) :: r
    | .gt => (k, v) :: insert key value r

def ofPairs (pairs : List (Value × Value)) : List (Value × Value) :=
  pairs.foldl (fun fields p => insert p.1 p.2 fields) []

def equalScalars (a b : Value) : Bool :=
  match a, b with
  | .undefined, .undefined => true
  | .nothing, .nothing => true
  | .space i, .space j => i == j
  | .loop i, .loop j => i == j
  | .callable _ i, .callable _ j => i == j
  | .builtin s, .builtin t => s == t
  | a, b => match operands? a b with
    | some (.whole m n) => m == n
    | some (.real f g) => f == g
    | some (.text s t) => s == t
    | none => false

mutual

/-- Numbers are equal if their values are, whatever they are written like. -/
def equal : Value → Value → Bool
  | .list a, .list b => equalLists a b
  | .group key items, .group key' items' => equal key key' && equalLists items items'
  | .group key items, .list [key', .list items'] => equal key key' && equalLists items items'
  | .map a, .map b => a.length == b.length && equalFields a b
  | a, b => equalScalars a b

def equalLists : List Value → List Value → Bool
  | [], [] => true
  | a :: r, b :: t => equal a b && equalLists r t
  | _, _ => false

def equalFields : List (Value × Value) → List (Value × Value) → Bool
  | [], _ => true
  | (k, a) :: r, fields => (match get? k fields with
      | some b => equal a b
      | none => false) && equalFields r fields

end

def items? : Value → Option (List Value)
  | .undefined | .nothing => some []
  | .text s _ => some (s.toList.map fun c => plain c.toString)
  | .list items => some items
  | .group key items => some [key, .list items]
  | .map fields => some (fields.map (·.1))
  | .imported fields _ => some (fields.map (·.1))
  | _ => none

def size? : Value → Option Nat
  | .text s _ => some s.length
  | .list items => some items.length
  | .group .. => some 2
  | .map fields => some fields.length
  | .imported fields _ => some fields.length
  | _ => none

/-- A position, which may be counted from the end. -/
def index? (key : Value) (size : Nat) : Option Nat := do
  let i ← key.whole?
  if 0 ≤ i then some i.toNat
  else if i.natAbs ≤ size then some (size - i.natAbs) else none

def field? (owner : Value) (name : String) : Option Value :=
  match owner with
  | .map fields => get? (plain name) fields
  | .imported fields _ => get? (plain name) fields
  | .group key items =>
    if name = "grouper" then some key else if name = "list" then some (.list items)
    else none
  | _ => none

def item? (owner key : Value) : Option Value :=
  match owner with
  | .map fields => get? key fields
  | .imported fields _ => get? key fields
  | .list items => (index? key items.length).bind fun i => items[i]?
  | .text s _ =>
    let chars := s.toList
    (index? key chars.length).bind fun i => (chars[i]?).map fun c => plain c.toString
  | .group k items => match key with
    | .text name _ => field? (.group k items) name
    | key => (index? key 2).bind fun i => [k, .list items][i]?
  | _ => none

end SiteTree.Template.Value
