import SiteTree.Number.Written
import SiteTree.Template.Basic
import SiteTree.Template.Fault
import SiteTree.Template.Value.Order
import SiteTree.Template.Value.Text
import SiteTree.Text.Split

/-!
What operators do with values. Whole numbers have 128 bits; with one floating point number, an
operator works on two of them.
-/

namespace SiteTree.Template

abbrev Outcome := Except PageFault

def refuse {α : Type} (kind : PageFaultKind) (detail : String) : Outcome α :=
  .error (.of kind detail)

namespace Operator

open Number Value

def misfit {α : Type} (sign : String) (a b : Value) : Outcome α :=
  refuse .badOperation ("tried to use " ++ sign ++ " operator on unsupported types " ++ a.kind ++
    " and " ++ b.kind)

def overflow {α : Type} (sign : String) (a b : Value) : Outcome α :=
  refuse .badOperation ("unable to calculate " ++ a.display ++ " " ++ sign ++ " " ++ b.display)

/-- The outcome of an operator on whole numbers, unless it needs more than 128 bits. -/
def wholeOutcome (sign : String) (a b : Value) (n : Int) : Outcome Value :=
  if fits n then .ok (.whole n) else overflow sign a b

def scaled (mantissa : Nat) (exponent : Int) : Float :=
  if 0 ≤ exponent then ofRatio (mantissa * twoTo exponent.toNat) 1
  else ofRatio mantissa (twoTo (-exponent).toNat)

/-- What is left of a division that is cut to a whole number; it has the sign of the dividend. -/
def realRemainder (f g : Float) : Float :=
  if f.isNaN || g.isNaN || f.isInf || g == 0.0 then notNumber
  else if g.isInf then f
  else
    let x := binary f
    let y := binary g
    let e := min x.exponent y.exponent
    let r := (x.mantissa * twoTo (x.exponent - e).toNat) % (y.mantissa * twoTo (y.exponent - e).toNat)
    if isNegative f then -(scaled r e) else scaled r e

/-- A whole quotient that leaves no negative remainder. -/
def realQuotient (f g : Float) : Float :=
  let q := f / g
  let q := if q < 0.0 then q.ceil else q.floor
  if realRemainder f g < 0.0 then (if 0.0 < g then q - 1.0 else q + 1.0) else q

def repeated (n : Value) (detail : String) : Outcome Nat :=
  match n.whole? with
  | some i => if 0 ≤ i then .ok i.toNat else refuse .badOperation detail
  | none => refuse .badOperation detail

def items : Value → Option (List Value)
  | .list items => some items
  | .group key items => some [key, .list items]
  | _ => none

def add (a b : Value) : Outcome Value :=
  match items a, items b with
  | some s, some t => .ok (.list (s ++ t))
  | _, _ => match operands? a b with
    | some (.whole m n) => wholeOutcome "+" a b (m + n)
    | some (.real f g) => .ok (.real (f + g))
    | some (.text s t) => .ok (plain (s ++ t))
    | none => misfit "+" a b

def subtract (a b : Value) : Outcome Value :=
  match operands? a b with
  | some (.whole m n) => wholeOutcome "-" a b (m - n)
  | some (.real f g) => .ok (.real (f - g))
  | _ => misfit "-" a b

def repeatText (s : String) (n : Value) : Outcome Value := do
  let n ← repeated n "strings can only be multiplied with integers"
  .ok (plain (String.join (List.replicate n s)))

def repeatItems (s : List Value) (n : Value) : Outcome Value := do
  let n ← repeated n "sequences and iterables can only be multiplied with integers"
  .ok (.list (List.replicate n s).flatten)

def multiply (a b : Value) : Outcome Value :=
  match a.str?, b.str?, items a, items b with
  | some s, _, _, _ => repeatText s b
  | none, some t, _, _ => repeatText t a
  | none, none, some s, _ => repeatItems s b
  | none, none, none, some t => repeatItems t a
  | none, none, none, none => match operands? a b with
    | some (.whole m n) => wholeOutcome "*" a b (m * n)
    | some (.real f g) => .ok (.real (f * g))
    | _ => misfit "*" a b

def divide (a b : Value) : Outcome Value :=
  match a.real?, b.real? with
  | some f, some g => .ok (.real (f / g))
  | _, _ => misfit "/" a b

def divideWhole (a b : Value) : Outcome Value :=
  match operands? a b with
  | some (.whole m n) => if n = 0 then overflow "//" a b else wholeOutcome "//" a b (m / n)
  | some (.real f g) => .ok (.real (realQuotient f g))
  | _ => misfit "//" a b

/-- The remainder of whole numbers is never negative. -/
def remainder (a b : Value) : Outcome Value :=
  match operands? a b with
  | some (.whole m n) => if n = 0 then overflow "%" a b else wholeOutcome "%" a b (m % n)
  | some (.real f g) => .ok (.real (realRemainder f g))
  | _ => misfit "%" a b

def wholePower? (m : Int) (n : Nat) : Option Int :=
  if m.natAbs ≤ 1 then some (m.pow (if n = 0 then 0 else 2 - n % 2))
  else if 128 < n then none
  else some (m.pow n)

def power (a b : Value) : Outcome Value :=
  match operands? a b with
  | some (.whole m n) =>
    if n < 0 || twoTo 32 ≤ n then overflow "**" a b
    else match wholePower? m n.toNat with
      | some k => wholeOutcome "**" a b k
      | none => overflow "**" a b
  | some (.real f g) => .ok (.real (f.pow g))
  | _ => misfit "**" a b

/-- Is the value a part of the text, a key of the table, or an item of the list? -/
def holds (container value : Value) : Outcome Bool :=
  match container with
  | .undefined => .ok false
  | .text s _ => .ok (Text.holds value.display.toList s.toList)
  | .map fields => .ok (get? value fields).isSome
  | .list members => .ok (members.any (equal · value))
  | .group key members => .ok (equal key value || equal (.list members) value)
  | .imported .. | .space _ | .loop _ | .callable .. | .builtin _ => .ok false
  | _ => refuse .badOperation "cannot perform a containment check on this value"

def ordered (p : Ordering → Bool) (a b : Value) : Outcome Value := .ok (.bool (p (order a b)))

def apply (op : BinaryOp) (a b : Value) : Outcome Value :=
  match op with
  | .equal => .ok (.bool (Value.equal a b))
  | .unequal => .ok (.bool !(Value.equal a b))
  | .less => ordered Ordering.isLT a b
  | .atMost => ordered Ordering.isLE a b
  | .greater => ordered Ordering.isGT a b
  | .atLeast => ordered Ordering.isGE a b
  | .within => .bool <$> holds b a
  | .add => add a b
  | .subtract => subtract a b
  | .multiply => multiply a b
  | .divide => divide a b
  | .divideWhole => divideWhole a b
  | .remainder => remainder a b
  | .power => power a b
  | .concat => .ok (plain (a.display ++ b.display))

def negate : Value → Outcome Value
  | .real f => .ok (.real (-f))
  | .whole n =>
    if fits (-n) then .ok (.whole (-n)) else refuse .badOperation "cannot negate value"
  | _ => refuse .badOperation "cannot negate value"

def sliceEnd : Value → Outcome (Option Int)
  | .nothing => .ok none
  | v => match v.whole? with
    | some n => .ok (some n)
    | none => refuse .badOperation ("cannot convert " ++ v.kind ++ " to i64")

/-- A position counted from the end of so many, and held between two bounds. -/
def clamp (size low high i : Int) : Int := max low (min high (if i < 0 then size + i else i))

/-- The positions that a slice takes out of so many. -/
def slicePositions (size : Nat) (start stop : Option Int) (step : Int) : List Nat :=
  let n : Int := size
  if 0 < step then
    let a := (start.map (clamp n 0 n)).getD 0
    let b := (stop.map (clamp n 0 n)).getD n
    (List.range ((b - a + step - 1) / step).toNat).map fun (i : Nat) => (a + step * i).toNat
  else
    let a := (start.map (clamp n (-1) (n - 1))).getD (n - 1)
    let b := (stop.map (clamp n (-1) (n - 1))).getD (-1)
    (List.range ((a - b - step - 1) / (-step)).toNat).map fun (i : Nat) => (a + step * i).toNat

def slice (owner start stop step : Value) : Outcome Value := do
  let start ← sliceEnd start
  let stop ← sliceEnd stop
  let step := (← sliceEnd step).getD 1
  if step = 0 then refuse .badOperation "cannot slice by step size of 0"
  match owner with
  | .undefined | .nothing => .ok (.list [])
  | .text s _ =>
    let chars := s.toList.toArray
    .ok (plain (String.ofList ((slicePositions chars.size start stop step).filterMap (chars[·]?))))
  | v => match items v with
    | some members =>
      let members := members.toArray
      .ok (.list ((slicePositions members.size start stop step).filterMap (members[·]?)))
    | none => refuse .badOperation ("value of type " ++ v.kind ++ " cannot be sliced")

end Operator

end SiteTree.Template
