import SiteTree.Template.Reading

/-!
Reading expressions. Operators of one level group to the left; each level reads its operands with
the next one.
-/

namespace SiteTree.Template

open Read

/-- Reads operands as long as an operator of the level comes between them. -/
def chain (operand : Read Expr) (join? : Token → Option (Expr → Expr → Expr)) :
    Nat → Expr → Read Expr
  | 0, e => return e
  | n + 1, e => do
    match (← peek?).bind join? with
    | none => return e
    | some join =>
      let _ ← next?
      let right ← operand
      chain operand join? n (join e right)

def level (operand : Read Expr) (join? : Token → Option (Expr → Expr → Expr)) : Read Expr := do
  let e ← operand
  chain operand join? (← left) e

def eitherJoin? (t : Token) : Option (Expr → Expr → Expr) :=
  if t.isWord "or" then some .either else none

def bothJoin? (t : Token) : Option (Expr → Expr → Expr) :=
  if t.isWord "and" then some .both else none

def sumJoin? : Token → Option (Expr → Expr → Expr)
  | .mark "+" => some (.binary .add)
  | .mark "-" => some (.binary .subtract)
  | _ => none

def concatJoin? : Token → Option (Expr → Expr → Expr)
  | .mark "~" => some (.binary .concat)
  | _ => none

def productJoin? : Token → Option (Expr → Expr → Expr)
  | .mark "*" => some (.binary .multiply)
  | .mark "/" => some (.binary .divide)
  | .mark "//" => some (.binary .divideWhole)
  | .mark "%" => some (.binary .remainder)
  | _ => none

def powerJoin? : Token → Option (Expr → Expr → Expr)
  | .mark "**" => some (.binary .power)
  | _ => none

def compareJoin? : Token → Option (Expr → Expr → Expr)
  | .mark "==" => some (.binary .equal)
  | .mark "!=" => some (.binary .unequal)
  | .mark "<" => some (.binary .less)
  | .mark "<=" => some (.binary .atMost)
  | .mark ">" => some (.binary .greater)
  | .mark ">=" => some (.binary .atLeast)
  | .word "in" => some (.binary .within)
  | _ => none

/-- Strings that stand side by side are one. -/
def adjacent : Nat → String → Read String
  | 0, s => return s
  | n + 1, s => do
    match ← peek? with
    | some (.string t) =>
      let _ ← next?
      adjacent n (s ++ t)
    | _ => return s

/-- A part in brackets; with a comma it is a list. -/
def bracketed (expr : Read Expr) (line : Nat) : Read Expr := do
  if ← skipsMark ")" then return .list line []
  let e ← expr
  if ← sees (·.isMark ",") then
    let r ← series ")" expr (← left) false
    return .list line (e :: r)
  else
    wantMark ")"
    return e

def entry (expr : Read Expr) : Read (Expr × Expr) := do
  let key ← expr
  wantMark ":"
  let value ← expr
  return (key, value)

def word (line : Nat) (w : String) : Expr :=
  if w = "true" || w = "True" then .literal line (.bool true)
  else if w = "false" || w = "False" then .literal line (.bool false)
  else if w = "none" || w = "None" then .literal line .nothing
  else .name line w

def primary (expr : Read Expr) : Read Expr := do
  let t ← next "expression"
  let line ← line
  match t with
  | .word w => return word line w
  | .string s => return .literal line (.text (← adjacent (← left) s))
  | .whole n => return .literal line (.whole n)
  | .real f => return .literal line (.real f)
  | .mark "(" => bracketed expr line
  | .mark "[" => return .list line (← series "]" expr (← left) true)
  | .mark "\x7b" =>
    let entries ← series "\x7d" (entry expr) (← left) true
    return .map line (entries.map (·.1)) (entries.map (·.2))
  | _ => malformed "unexpected token, expected expression"

/-- Lines of the minus signs in front of an operand. -/
def signs : Nat → Read (List Nat)
  | 0 => return []
  | n + 1 => do
    if ← skipsMark "-" then
      let line ← line
      return line :: (← signs n)
    else return []

def signed (expr : Read Expr) : Read Expr := do
  let lines ← signs (← left)
  let e ← deeper (primary expr)
  return lines.foldr .negate e

/-- An argument with its role. Behind a named one, no argument may do without a name. -/
def argument (expr simple : Read Expr) (named : Bool) : Read (Role × Expr) := do
  if ← skipsMark "**" then return (.spreadNamed, ← expr)
  else if ← skipsMark "*" then return (.spread, ← expr)
  else
    let e ← expr
    match e with
    | .name _ key =>
      if ← skipsMark "=" then return (.named key, ← simple)
      else if named then malformed "non-keyword arg after keyword arg"
      else return (.plain, e)
    | _ => if named then malformed "non-keyword arg after keyword arg" else return (.plain, e)

def Role.isNamed : Role → Bool
  | .named _ => true
  | .spreadNamed => true
  | _ => false

def argumentsFrom (expr simple : Read Expr) : Nat → Bool → Bool → Read (List (Role × Expr))
  | 0, _, _ => malformed "unexpected token"
  | n + 1, first, named => do
    if ← skipsMark ")" then return []
    if !first then
      wantMark ","
      if ← skipsMark ")" then return []
    let a ← argument expr simple named
    let r ← argumentsFrom expr simple n false (named || a.1.isNamed)
    return a :: r

/-- A call has at most this many arguments. -/
def maxArguments : Nat := 2000

def arguments (expr simple : Read Expr) : Read (List (Role × Expr)) := do
  wantMark "("
  let args ← argumentsFrom expr simple (← left) true false
  if maxArguments < args.length then malformed "Too many arguments in function call"
  else return args

def optionalArguments (expr simple : Read Expr) : Read (List (Role × Expr)) := do
  if ← sees (·.isMark "(") then arguments expr simple else return []

def slicePart (expr : Read Expr) (line : Nat) (absent : List String) : Read Expr := do
  if ← sees (fun t => absent.any t.isMark) then return .literal line .nothing else expr

def subscript (expr : Read Expr) (owner : Expr) : Read Expr := do
  let start ← slicePart expr owner.lastLine [":"]
  let isSlice ← skipsMark ":"
  if isSlice then
    let stop ← slicePart expr start.lastLine ["]", ":"]
    let step ← if ← skipsMark ":" then slicePart expr stop.lastLine ["]"]
      else pure (.literal stop.lastLine .nothing)
    wantMark "]"
    return .slice owner start stop step
  else
    wantMark "]"
    return .item owner start

def accesses (expr simple : Read Expr) : Nat → Expr → Read Expr
  | 0, e => return e
  | n + 1, e => do
    match ← peek? with
    | some (.mark ".") =>
      let _ ← next?
      match ← next "identifier" with
      | .word name => accesses expr simple n (.field e name)
      | .whole i => accesses expr simple n (.item e (.literal (← line) (.whole i)))
      | _ => malformed "unexpected token, expected identifier"
    | some (.mark "[") =>
      let _ ← next?
      accesses expr simple n (← subscript expr e)
    | some (.mark "(") =>
      let args ← arguments expr simple
      accesses expr simple n (.call e (args.map (·.1)) (args.map (·.2)))
    | _ => return e

def startsOperand : Token → Bool
  | .word w => !(["and", "or", "else", "is"].contains w)
  | .string _ => true
  | .whole _ => true
  | .real _ => true
  | .mark m => ["+", "-", "[", "\x7b"].contains m
  | _ => false

def operand (expr simple : Read Expr) : Read Expr := do
  let e ← signed expr
  accesses expr simple (← left) e

def testArguments (expr simple : Read Expr) : Read (List (Role × Expr)) := do
  if ← sees (·.isMark "(") then arguments expr simple
  else if ← sees startsOperand then return [(.plain, ← operand expr simple)]
  else return []

/-- Filters and tests behind a value. -/
def refinements (expr simple : Read Expr) : Nat → Expr → Read Expr
  | 0, e => return e
  | n + 1, e => do
    match ← peek? with
    | some (.mark "|") =>
      let _ ← next?
      let name ← identifier
      let args ← optionalArguments expr simple
      refinements expr simple n (.filter name e (args.map (·.1)) (args.map (·.2)))
    | some (.word "is") =>
      let _ ← next?
      let negated ← skipsWord "not"
      let name ← identifier
      let args ← testArguments expr simple
      let test : Expr := .test name e (args.map (·.1)) (args.map (·.2))
      refinements expr simple n (if negated then .opposite test else test)
    | _ => return e

def unary (expr simple : Read Expr) : Read Expr := do
  let e ← operand expr simple
  refinements expr simple (← left) e

def sum (expr simple : Read Expr) : Read Expr :=
  level (level (level (level (unary expr simple) powerJoin?) productJoin?) concatJoin?) sumJoin?

/-- Comparisons one after the other; each compares the outcome of those before it. -/
def comparisons (sum : Read Expr) : Nat → Expr → Read Expr
  | 0, e => return e
  | n + 1, e => do
    match ← peek? with
    | some (.word "not") =>
      let _ ← next?
      wantWord "in"
      let right ← sum
      comparisons sum n (.opposite (.binary .within e right))
    | some t => match compareJoin? t with
      | none => return e
      | some join =>
        let _ ← next?
        let right ← sum
        comparisons sum n (join e right)
    | none => return e

def comparison (sum : Read Expr) : Read Expr := do
  let e ← sum
  comparisons sum (← left) e

def opposites (operand : Read Expr) : Nat → Read Expr
  | 0 => operand
  | n + 1 => do
    if ← skipsWord "not" then return .opposite (← opposites operand n) else operand

def opposite (operand : Read Expr) : Read Expr := do opposites operand (← left)

def simple (expr : Read Expr) : Nat → Read Expr
  | 0 => malformed "template exceeds maximum recursion limits"
  | n + 1 =>
    level (level (opposite (comparison (sum expr (simple expr n)))) bothJoin?) eitherJoin?

/-- Conditions behind a value. Without an alternative there is nothing if the condition fails. -/
def conditions (simple : Read Expr) : Nat → Expr → Read Expr
  | 0, e => return e
  | n + 1, e => do
    if ← skipsWord "if" then
      let test ← simple
      let no ← if ← skipsWord "else" then
          let alternative ← simple
          conditions simple n alternative
        else pure (.literal e.lastLine .undefined)
      conditions simple n (.choose test e no)
    else return e

def exprWithin : Nat → Read Expr
  | 0 => malformed "template exceeds maximum recursion limits"
  | n + 1 => deeper do
    let part := simple (exprWithin n) (maxDepth + 1)
    let e ← part
    conditions part (← left) e

def expr : Read Expr := exprWithin (maxDepth + 1)

def simpleExpr : Read Expr := simple expr (maxDepth + 1)

end SiteTree.Template
