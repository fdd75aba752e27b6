import SiteTree.Template.Builtin
import SiteTree.Template.Filter
import SiteTree.Template.State

/-!
Calls of macros, blocks, loops and built-in functions. Whatever runs other parts of templates is
a task; the way to run one is handed in from outside.
-/

namespace SiteTree.Template

open Value Render

inductive Task where
  /-- Statements of a template, and then the template that it extends. -/
  | body (page : String) (stmts : List Stmt)
  /-- A macro in its frame. -/
  | expand (params : List String) (defaults : List Expr) (values : List Value) (page : String)
      (stmts : List Stmt)
  /-- A loop once more, over other items. -/
  | again (target : Target) (stmts : List Stmt) (items : List Value)

abbrev Runner := Task → Render Unit

def gather : List (Role × Value) → Outcome Given
  | [] => .ok .none
  | (role, v) :: r => do
    let given ← gather r
    match role with
    | .plain => .ok { given with plain := v :: given.plain }
    | .named key => .ok { given with named := (key, v) :: given.named }
    | .spread => .ok { given with plain := (← toItems v) ++ given.plain }
    | .spreadNamed => match v with
      | .map fields =>
        .ok { given with named := fields.map (fun p => (p.1.display, p.2)) ++ given.named }
      | _ => refuse .badOperation "expected a map"

def newSpace (given : Given) : Render Value := do
  let start ← match given.plain with
    | [] => pure []
    | [.map fields] => pure (fields.map fun p => (p.1.display, p.2))
    | [.undefined] => pure []
    | [_] => refuse .badOperation "expected a map"
    | _ => refuse .tooManyArguments "received unexpected extra arguments"
  let id := (← get).spaces.size
  modify fun s => { s with spaces := s.spaces.push (Table.ofPairs (start ++ given.named)) }
  return .space id

/-- The part of an argument list for one parameter, given its place. -/
def argumentFor (given : Given) (place : Nat) (param : String) : Outcome Value :=
  match given.plain[place]?, given.named.lookup param with
  | some _, some _ => Template.refuse .tooManyArguments ("duplicate argument " ++ param)
  | some v, none => .ok v
  | none, some v => .ok v
  | none, none => .ok .undefined

def argumentsOf (given : Given) : Nat → List String → Outcome (List Value)
  | _, [] => .ok []
  | n, p :: r => do
    let v ← argumentFor given n p
    let vs ← argumentsOf given (n + 1) r
    .ok (v :: vs)

/-- One value for each parameter of a macro. -/
def macroValues (m : Macro) (given : Given) : Outcome (List Value) := do
  if m.params.length < given.plain.length then Given.tooMany
  let values ← argumentsOf given 0 m.params
  given.onlyNamed (if m.takesCaller then "caller" :: m.params else m.params)
  .ok values

/-- The depth that a call of a macro and that an included template add. -/
def macroCost : Nat := 4

def includeCost : Nat := 10

def callMacro (run : Runner) (m : Macro) (given : Given) : Render Value := do
  let values ← macroValues m given
  let s ← get
  let caller := (given.named.lookup "caller").getD .undefined
  let locals := if m.takesCaller then [("caller", caller)] else []
  set { s with
    frames := [{ Frame.empty with locals := locals, ground := .closure m.closure }],
    outer := s.outer + s.frames.length + macroCost, sinks := [⟨"", false⟩],
    blocks := [], currentBlock := none, loaded := [], parent := none }
  checkDepth
  run (.expand m.params m.defaults values m.page m.body)
  let text ← closeSink
  modify fun t => { t with
    page := s.page, frames := s.frames, outer := s.outer, sinks := s.sinks, blocks := s.blocks,
    currentBlock := s.currentBlock, loaded := s.loaded, parent := s.parent,
    escaping := s.escaping }
  return s.escaping.mark text

def callBuiltin (name : String) (given : Given) : Render Value := do
  match name with
  | "range" => liftM (range given.values)
  | "dict" => liftM (dict given)
  | "namespace" => newSpace given
  | "debug" => return .plain (debugText given.values)
  | _ => refuse .unknownFunction (name ++ " is unknown")

def call (run : Runner) (callee : Value) (given : Given) : Render Value := do
  match callee with
  | .callable _ id => match (← get).macros[id]? with
    | some m => callMacro run m given
    | none => refuse .badOperation "cannot call this macro"
  | .builtin name => callBuiltin name given
  | .loop _ => refuse .badOperation "loop cannot be called if reassigned to different variable"
  | v => refuse .badOperation ("value of type " ++ v.kind ++ " is not callable")

/-- Runs the body of a block that counts at the moment, in a frame of its own. -/
def runBlock (run : Runner) (stack : BlockStack) : Render Unit := do
  match stack.bodies.drop stack.passed with
  | [] => refuse .badOperation "no parent block exists"
  | (page, stmts) :: _ => inFrame .empty (run (.body page stmts))

def callBlock (run : Runner) (name : String) : Render Unit := do
  let s ← get
  match s.blocks.get? name with
  | none => refuse .unknownBlock ("block '" ++ name ++ "' not found")
  | some stack =>
    set { s with currentBlock := some name }
    runBlock run stack
    modify fun t => { t with currentBlock := s.currentBlock }

def setPassed (name : String) (passed : Nat) : Render Unit := modify fun s =>
  match s.blocks.get? name with
  | some stack => { s with blocks := s.blocks.insert name { stack with passed := passed } }
  | none => s

/-- The body that the running body of a block has replaced. -/
def callSuper (run : Runner) : Render Unit := do
  let s ← get
  match s.currentBlock.bind fun name => (s.blocks.get? name).map (name, ·) with
  | none => refuse .badOperation "cannot super outside of block"
  | some (name, stack) =>
    if stack.bodies.length ≤ stack.passed + 1 then refuse .badOperation "no parent block exists"
    setPassed name (stack.passed + 1)
    let next := { stack with passed := stack.passed + 1 }
    wrap .failedBlock "error in super block" (runBlock run next)
    setPassed name stack.passed

/-- Runs the innermost loop again if it says that it may. -/
def callLoop (run : Runner) (given : Given) : Render Unit := do
  match given.values, ← currentLoop? with
  | [v], some ⟨_, _, some (target, stmts)⟩ =>
    let items ← liftM (toItems (← settle v))
    run (.again target stmts items)
  | [_], some _ => refuse .badOperation "cannot recurse outside of recursive loop"
  | [_], none => refuse .badOperation "cannot recurse outside of loop"
  | _, _ => refuse .badOperation "loop() takes one argument"

/-- A function is known by its name; some names are special. -/
def callNamed (run : Runner) (name : String) (given : Given) : Render Value := do
  if name = "super" then
    if !given.values.isEmpty then refuse .badOperation "super() takes no arguments"
    captured (callSuper run)
  else if name = "loop" then captured (callLoop run given)
  else match ← value? name with
    | none | some .undefined => refuse .unknownFunction (name ++ " is unknown")
    | some f => call run f given

/-- The block of a name as a value. Behind the extended template it is not run here. -/
def blockValue (run : Runner) (name : String) : Render Value := do
  captured do if (← get).parent.isNone then callBlock run name

def cycled (r : LoopRecord) (values : List Value) : Value :=
  (values[r.position % values.length]?).getD .undefined

def changed (id : Nat) (r : LoopRecord) (values : List Value) : Render Value := do
  let same := match r.last with
    | some old => equalLists old values
    | none => false
  modify fun s => { s with loops := s.loops.setIfInBounds id { r with last := some values } }
  return .bool !same

def callMethod (run : Runner) (owner : Value) (name : String) (given : Given) : Render Value := do
  match owner with
  | .loop id =>
    let r := ((← get).loops[id]?).getD default
    if name = "cycle" then return cycled r given.values
    else if name = "changed" then changed id r given.values
    else refuse .unknownMethod ("loop object has no method named " ++ name)
  | owner => match (← settle owner).field? name with
    | some f => call run f given
    | none => refuse .unknownMethod (owner.kind ++ " has no method named " ++ name)

def loopField (r : LoopRecord) (name : String) : Value :=
  match name with
  | "index0" => .whole r.position
  | "index" => .whole (r.position + 1)
  | "length" => .whole r.size
  | "revindex" => .whole (r.size - r.position : Nat)
  | "revindex0" => .whole (r.size - r.position - 1 : Nat)
  | "first" => .bool (r.position = 0)
  | "last" => .bool (r.size = 0 || r.position + 1 = r.size)
  | "depth" => .whole (r.depth + 1)
  | "depth0" => .whole r.depth
  | "previtem" => r.previous
  | "nextitem" => r.next
  | _ => .undefined

/-- A field as it is at the moment. -/
def readField (owner : Value) (name : String) : Render Value := do
  match owner with
  | .loop id => return loopField (((← get).loops[id]?).getD default) name
  | owner => liftM (fieldOf (← settle owner) name)

def readItem (owner key : Value) : Render Value := do
  match owner, key with
  | .loop id, .text name _ => readField (.loop id) name
  | owner, key => liftM (itemOf (← settle owner) key)

end SiteTree.Template
