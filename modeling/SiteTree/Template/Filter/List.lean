import SiteTree.Template.Given
import SiteTree.Text.Blank

/-!
Filters on lists and tables.
-/

namespace SiteTree.Template.Filter

open Value

/-- Nothing is written in front of the first text that is not empty. -/
def joinFrom (joiner : String) : String → List Value → String
  | s, [] => s
  | s, v :: r => joinFrom joiner ((if s.isEmpty then s else s ++ joiner) ++ v.display) r

def join (joiner : Option Value) (v : Value) : Outcome Value :=
  match v.items? with
  | some items => .ok (plain (joinFrom ((joiner.map display).getD "") "" items))
  | none => refuse .badOperation ("cannot join value of type " ++ v.kind)

def reverse (v : Value) : Outcome Value :=
  match v with
  | .undefined | .nothing => .ok v
  | .text s _ => .ok (plain (String.ofList s.toList.reverse))
  | .list items => .ok (.list items.reverse)
  | .group key items => .ok (.list [.list items, key])
  | .map fields => .ok (.list (fields.map (·.1)).reverse)
  | _ => refuse .badOperation ("cannot reverse values of type " ++ v.kind)

def first (v : Value) : Outcome Value :=
  match v with
  | .text .. | .list _ | .group .. | .map _ => do .ok ((← toItems v).head?.getD .undefined)
  | _ => refuse .badOperation "cannot get first item from value"

def last (v : Value) : Outcome Value :=
  match v with
  | .text .. | .list _ | .group .. => do .ok ((← toItems v).getLast?.getD .undefined)
  | _ => refuse .badOperation "cannot get last item from value"

/-- Of equal values the first is least. -/
def least : List Value → Value
  | [] => .undefined
  | v :: r => r.foldl (fun a b => if order b a == .lt then b else a) v

/-- Of equal values the last is greatest. -/
def greatest : List Value → Value
  | [] => .undefined
  | v :: r => r.foldl (fun a b => if order b a == .lt then a else b) v

def sumFrom : Value → List Value → Outcome Value
  | total, [] => .ok total
  | total, .undefined :: r => sumFrom total r
  | total, .whole n :: r => do sumFrom (← Operator.add total (.whole n)) r
  | total, .real f :: r => do sumFrom (← Operator.add total (.real f)) r
  | _, v :: _ => refuse .badOperation ("can only sum numbers, got " ++ v.kind)

def fillUp (filler : Option Value) (n : Nat) : List Value :=
  match filler with
  | some v => List.replicate n v
  | none => []

/-- Rows of so many values; the last row may be filled up. -/
def rowsOf (count : Nat) (filler : Option Value) : Nat → List Value → List Value
  | 0, _ => []
  | _ + 1, [] => []
  | n + 1, items =>
    let row := items.take count
    .list (row ++ fillUp filler (count - row.length)) :: rowsOf count filler n (items.drop count)

def batch (count : Nat) (filler : Option Value) (v : Value) : Outcome Value :=
  if count = 0 then refuse .badOperation "count cannot be 0"
  else do
    let items ← toItems v
    .ok (.list (rowsOf count filler items.length items))

/-- So many columns of nearly equal length; the first ones take what is left over. -/
def columns (count : Nat) (filler : Option Value) (v : Value) : Outcome Value :=
  if count = 0 then refuse .badOperation "count cannot be 0"
  else do
    let items ← toItems v
    let size := items.length / count
    let longer := items.length % count
    .ok (.list ((List.range count).map fun i =>
      let start := i * size + min i longer
      let column := (items.drop start).take (if i < longer then size + 1 else size)
      .list (if i < longer then column else column ++ fillUp filler 1)))

def pairs (v : Value) : Outcome Value :=
  match v with
  | .map fields => .ok (.list (fields.map fun p => .list [p.1, p.2]))
  | _ => refuse .badOperation "cannot convert value into pair list"

def pairKey (part : Option Value) : Outcome (Value × Value → Value) :=
  match part with
  | none => .ok (·.1)
  | some v =>
    if v.str? = some "key" then .ok (·.1)
    else if v.str? = some "value" then .ok (·.2)
    else refuse .badOperation "invalid value for 'by' parameter"

def dictsort (g : Given) (v : Value) : Outcome Value :=
  match v with
  | .map fields => do
    let key ← pairKey (g.named? "by")
    let exact ← flagOr false (g.named? "case_sensitive")
    let backwards ← flagOr false (g.named? "reverse")
    g.onlyNamed ["by", "case_sensitive", "reverse"]
    let sorted := fields.mergeSort fun a b => sorting exact (key a) (key b) != .gt
    let sorted := if backwards then sorted.reverse else sorted
    .ok (.list (sorted.map fun p => .list [p.1, p.2]))
  | _ => refuse .badOperation "cannot convert value into pair list"

/-- Sorts by the first of several paths on which two values differ. -/
def sortingOn (paths : List String) (exact : Bool) (a b : Value) : Ordering :=
  paths.foldl (fun o p => o.then (match pathOf a p, pathOf b p with
    | .ok x, .ok y => sorting exact x y
    | _, _ => .eq)) .eq

def sort (g : Given) (v : Value) : Outcome Value := do
  let items ← toItems v
  let exact ← flagOr false (g.named? "case_sensitive")
  let sorted ← match g.named? "attribute" with
    | some paths => do
      let paths := (Text.splitString ',' (← toText paths)).map Text.trimString
      pure (items.mergeSort fun a b => sortingOn paths exact a b != .gt)
    | none => pure (sortBy id exact items)
  let backwards ← flagOr false (g.named? "reverse")
  g.onlyNamed ["case_sensitive", "attribute", "reverse"]
  .ok (.list (if backwards then sorted.reverse else sorted))

def uniqueFrom (key : Value → Value) : List Value → List Value → List Value
  | _, [] => []
  | seen, v :: r =>
    if seen.any fun s => order s (key v) == .eq then uniqueFrom key seen r
    else v :: uniqueFrom key (key v :: seen) r

def unique (lower : String → String) (g : Given) (v : Value) : Outcome Value := do
  let path ← (g.named? "attribute").mapM toText
  let exact ← flagOr false (g.named? "case_sensitive")
  let items ← toItems v
  g.onlyNamed ["attribute", "case_sensitive"]
  let part (v : Value) : Value := match path with
    | some p => pathOr .undefined p v
    | none => v
  let key (v : Value) : Value := match part v with
    | .text s _ => if exact then plain s else plain (lower s)
    | w => w
  .ok (.list (uniqueFrom key [] items))

/-- Gathers values with equal keys that stand side by side. -/
def gather (key : Value → Value) (exact : Bool) : List Value → List (Value × List Value)
  | [] => []
  | v :: r => match gather key exact r with
    | (k, items) :: groups =>
      if sorting exact (key v) k == .eq then (k, v :: items) :: groups
      else (key v, [v]) :: (k, items) :: groups
    | [] => [(key v, [v])]

def groupby (path : Option Value) (g : Given) (v : Value) : Outcome Value := do
  let otherwise := (g.named? "default").getD .undefined
  let exact ← flagOr false (g.named? "case_sensitive")
  let path ← match path.or (g.named? "attribute") with
    | some p => toText p
    | none => Given.missing
  let items ← toItems v
  g.onlyNamed ["attribute", "default", "case_sensitive"]
  let key := pathOr otherwise path
  .ok (.list ((gather key exact (sortBy key exact items)).map fun p => .group p.1 p.2))

def isMap : Value → Bool
  | .map _ => true
  | _ => false

def fieldsOf : Value → List (Value × Value)
  | .map fields => fields
  | _ => []

/-- Tables are put over each other, everything else one behind the other. -/
def chain (vs : List Value) : Outcome Value :=
  if vs.all isMap then .ok (.map (ofPairs (vs.flatMap fieldsOf)))
  else do .ok (.list (← vs.mapM toItems).flatten)

def zipped : Nat → List (List Value) → List Value
  | 0, _ => []
  | n + 1, ls =>
    if ls.any List.isEmpty then []
    else .list (ls.filterMap List.head?) :: zipped n (ls.map List.tail)

def zip (vs : List Value) : Outcome Value := do
  let ls ← vs.mapM toItems
  .ok (.list (zipped ((ls.head?.map List.length).getD 0) ls))

end SiteTree.Template.Filter
