/-!
Templates: text with tags in it. A tag writes the value of an expression, or is a statement that
steers what is written.
-/

namespace SiteTree.Template

inductive Literal where
  | undefined
  | nothing
  | bool (b : Bool)
  | whole (n : Int)
  | real (f : Float)
  | text (s : String)
  deriving Repr

inductive BinaryOp where
  | equal
  | unequal
  | less
  | atMost
  | greater
  | atLeast
  | within
  | add
  | subtract
  | multiply
  | divide
  | divideWhole
  | remainder
  | power
  | concat
  deriving DecidableEq, Repr

/-- How an argument is handed over: in its place, under a name, or as all the arguments that a
list or a table holds. -/
inductive Role where
  | plain
  | named (key : String)
  | spread
  | spreadNamed
  deriving DecidableEq, Repr

/-- Expressions know the lines of their leaves. -/
inductive Expr where
  | literal (line : Nat) (value : Literal)
  | name (line : Nat) (id : String)
  /-- What the statement around the expression has captured. -/
  | captured (line : Nat)
  | opposite (e : Expr)
  | negate (line : Nat) (e : Expr)
  | binary (op : BinaryOp) (left right : Expr)
  | both (left right : Expr)
  | either (left right : Expr)
  | choose (test yes no : Expr)
  | filter (name : String) (subject : Expr) (roles : List Role) (args : List Expr)
  | test (name : String) (subject : Expr) (roles : List Role) (args : List Expr)
  | field (owner : Expr) (name : String)
  | item (owner key : Expr)
  | slice (owner start stop step : Expr)
  | call (callee : Expr) (roles : List Role) (args : List Expr)
  | list (line : Nat) (items : List Expr)
  | map (line : Nat) (keys values : List Expr)
  deriving Repr

namespace Expr

mutual

/-- The line of the part that is evaluated last, which is blamed when the whole fails. -/
def lastLine : Expr → Nat
  | literal line _ => line
  | name line _ => line
  | captured line => line
  | opposite e => lastLine e
  | negate _ e => lastLine e
  | binary _ _ right => lastLine right
  | both _ right => lastLine right
  | either _ right => lastLine right
  | choose _ _ no => lastLine no
  | filter _ subject _ args => lastOf (lastLine subject) args
  | test _ subject _ args => lastOf (lastLine subject) args
  | field owner _ => lastLine owner
  | item _ key => lastLine key
  | slice _ _ _ step => lastLine step
  | call callee _ args => lastOf (lastLine callee) args
  | list line items => lastOf line items
  | map line _ values => lastOf line values

def lastOf (line : Nat) : List Expr → Nat
  | [] => line
  | e :: r => lastOf (lastLine e) r

end

end Expr

/-- What a value is bound to: a name, the parts of a list, or a field. -/
inductive Target where
  | name (id : String)
  | parts (line : Nat) (targets : List Target)
  | field (owner : Expr) (name : String)
  deriving Repr

inductive Stmt where
  | text (s : String)
  | emit (e : Expr)
  | loop (target : Target) (source : Expr) (filter : Option Expr) (again : Bool)
      (body otherwise : List Stmt)
  | choose (test : Expr) (yes no : List Stmt)
  | bindIn (bindings : List (Target × Expr)) (body : List Stmt)
  | set (target : Target) (value : Expr)
  | setBlock (target : Target) (filter : Option Expr) (body : List Stmt)
  | escape (mode : Expr) (body : List Stmt)
  | filterBlock (filter : Expr) (body : List Stmt)
  | block (line : Nat) (name : String)
  | extend (line : Nat) (name : Expr)
  | insert (line : Nat) (name : Expr) (optional : Bool)
  | importAll (line : Nat) (source : Expr) (name : String)
  | importSome (line : Nat) (source : Expr) (names : List (String × String))
  | define (name : String) (params : List String) (defaults : List Expr) (body : List Stmt)
  /-- The body becomes a macro, which the call captures. -/
  | callBlock (call : Expr) (params : List String) (defaults : List Expr) (body : List Stmt)
  | perform (call : Expr)
  | stop
  | skip
  deriving Repr

structure Script where
  page : String
  body : List Stmt
  blocks : List (String × List Stmt)
  deriving Repr, Inhabited

end SiteTree.Template
