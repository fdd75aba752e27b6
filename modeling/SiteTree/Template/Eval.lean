import SiteTree.Template.Call

/-!
The values of expressions.
-/

namespace SiteTree.Template

open Value Render

def literalValue : Literal → Value
  | .undefined => .undefined
  | .nothing => .nothing
  | .bool b => .bool b
  | .whole n => .whole n
  | .real f => .real f
  | .text s => .plain s

def Expr.name? : Expr → Option String
  | .name _ id => some id
  | _ => none

/-- Filters that use other filters may be nested more deeply than any argument list is long. -/
def filterDepth (given : Given) : Nat := given.values.length + 1

def applyFilter (name : String) (v : Value) (given : Given) : Render Value := do
  match Filter.ofName? (← get).escaping (filterDepth given) name with
  | some filter => liftM (filter (← settle v) given)
  | none => refuse .unknownFilter ("filter " ++ name ++ " is unknown")

def applyTest (name : String) (v : Value) (given : Given) : Render Value := do
  match Test.ofName? Filter.names name with
  | some test => return .bool (← liftM (test (← settle v) given.values))
  | none => refuse .unknownTest ("test " ++ name ++ " is unknown")

def given (roles : List Role) (values : List Value) : Render Given :=
  liftM (gather (roles.zip values))

section

variable (run : Runner) (extra : Value)

mutual

/-- The value of an expression. A mistake is blamed on the line of the last part. -/
def eval : Expr → Render Value
  | .literal _ value => return literalValue value
  | .name _ id => return (← value? id).getD .undefined
  | .captured _ => return extra
  | .opposite e => return .bool !(← truth (← eval e))
  | .negate line e => do
    let v ← eval e
    lift line (Operator.negate v)
  | .binary op left right => do
    let a ← eval left
    let b ← eval right
    lift right.lastLine (Operator.apply op (← settleText a) (← settleText b))
  | .both left right => do
    let a ← eval left
    if ← truth a then eval right else return a
  | .either left right => do
    let a ← eval left
    if ← truth a then return a else eval right
  | .choose test yes no => do
    if ← truth (← eval test) then eval yes else eval no
  | .filter name subject roles args => do
    let v ← eval subject
    let values ← evalAll args
    blame (Expr.lastOf subject.lastLine args) do applyFilter name v (← given roles values)
  | .test name subject roles args => do
    let v ← eval subject
    let values ← evalAll args
    blame (Expr.lastOf subject.lastLine args) do applyTest name v (← given roles values)
  | .field owner name => do
    let v ← eval owner
    blame owner.lastLine (readField v name)
  | .item owner key => do
    let v ← eval owner
    let k ← eval key
    blame key.lastLine (readItem v k)
  | .slice owner start stop step => do
    let v ← eval owner
    let a ← eval start
    let b ← eval stop
    let c ← eval step
    lift step.lastLine (Operator.slice (← settle v) a b c)
  | .call (.name line id) roles args => do
    let values ← evalAll args
    blame (Expr.lastOf line args) do callNamed run id (← given roles values)
  | .call (.field owner name) roles args => do
    if owner.name? = some "self" then
      blame owner.lastLine (blockValue run name)
    else
      let v ← eval owner
      let values ← evalAll args
      blame (Expr.lastOf owner.lastLine args) do callMethod run v name (← given roles values)
  | .call callee roles args => do
    let f ← eval callee
    let values ← evalAll args
    blame (Expr.lastOf callee.lastLine args) do call run f (← given roles values)
  | .list _ items => return .list (← evalAll items)
  | .map _ keys values => do
    let ks ← evalAll keys
    let vs ← evalAll values
    return .map (ofPairs (ks.zip vs))

def evalAll : List Expr → Render (List Value)
  | [] => return []
  | e :: r => do
    let v ← eval e
    return v :: (← evalAll r)

end

end

end SiteTree.Template
