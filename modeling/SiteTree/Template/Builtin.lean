import SiteTree.Template.Given

/-!
Functions that make values out of nothing but their arguments.
-/

namespace SiteTree.Template

open Number Value

def maxRange : Nat := 100000

def rangePart (v : Value) : Outcome Nat := do
  let n ← toCount v
  if n < twoTo 32 then .ok n else refuse .badOperation "cannot convert number to u32"

def rangeFrom (low high step : Nat) : Outcome Value :=
  if step = 0 then refuse .badOperation "cannot create range with step of 0"
  else
    let size := (high - low + step - 1) / step
    if maxRange < size then refuse .badOperation "range has too many elements"
    else .ok (.list ((List.range size).map fun (i : Nat) => .whole (low + i * step : Nat)))

def range (values : List Value) : Outcome Value := do
  Given.between 1 3 values
  let a ← rangePart (values[0]?.getD .undefined)
  let b ← (optional? values[1]?).mapM rangePart
  let step ← (optional? values[2]?).mapM rangePart
  match b with
  | some b => rangeFrom a b (step.getD 1)
  | none => rangeFrom 0 a (step.getD 1)

def dict (given : Given) : Outcome Value := do
  Given.between 0 1 given.plain
  let start ← match given.plain with
    | .map fields :: _ => pure fields
    | .undefined :: _ => pure []
    | v :: _ => refuse .badOperation ("cannot convert " ++ v.kind ++ " to map")
    | [] => pure []
  .ok (.map (ofPairs (start ++ given.named.map fun p => (.plain p.1, p.2))))

/-- The values laid out for a reader. -/
def debugText : List Value → String
  | [v] => v.laidOut 0
  | vs => (Value.list vs).laidOut 0

end SiteTree.Template
