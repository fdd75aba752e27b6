import SiteTree.Template.Eval
import SiteTree.Template.Mention

/-!
What statements do.
-/

namespace SiteTree.Template

open Value Render

/-- How a statement ends: as usual, or by leaving or repeating the loop around it. -/
inductive Flow where
  | usual
  | stop
  | skip
  deriving DecidableEq

section

variable (run : Runner)

def partsOf (v : Value) : Outcome (List Value) :=
  match v with
  | .list items => .ok items
  | .group key items => .ok [key, .list items]
  | .map fields => .ok (fields.map (·.1))
  | _ => refuse .cannotUnpack "value is not iterable"

def unpack (size : Nat) (v : Value) : Outcome (List Value) := do
  let values ← partsOf v
  if values.length = size then .ok values
  else refuse .cannotUnpack ("sequence of wrong length (expected " ++ toString size ++ ", got " ++
    toString values.length ++ ")")

def setField (owner : Value) (name : String) (v : Value) : Render Unit := do
  match owner with
  | .space id => modify fun s => { s with spaces := s.spaces.modify id (·.insert name v) }
  | owner => refuse .badOperation ("can only assign to namespaces, not " ++ owner.kind)

mutual

def bind : Target → Value → Render Unit
  | .name id, v => store id v
  | .parts line targets, v => do
    let values ← lift line (unpack targets.length (← settle v))
    bindAll targets values
  | .field owner name, v => do
    let o ← eval run .undefined owner
    blame owner.lastLine (setField o name v)

def bindAll : List Target → List Value → Render Unit
  | t :: r, v :: values => do
    bind t v
    bindAll r values
  | _, _ => return ()

end

/-- The depth of a loop counts the loops around it that may call themselves. -/
def newLoop (size : Nat) : Render Nat := do
  let s ← get
  let depth := match ← currentLoop? with
    | some ⟨id, _, some _⟩ => (s.loops[id]?.map (·.depth + 1)).getD 0
    | _ => 0
  modify fun s => { s with loops := s.loops.push ⟨0, size, depth, .undefined, .undefined, none⟩ }
  return s.loops.size

def place (id position : Nat) (previous next : Value) : Render Unit := modify fun s =>
  { s with loops := s.loops.modify id fun r =>
      { r with position := position, previous := previous, next := next } }

/-- One step for each item, until a step leaves the loop. -/
def steps (id : Nat) (step : Value → Render Flow) : Nat → Value → List Value → Render Unit
  | _, _, [] => return ()
  | n, previous, v :: r => do
    place id n previous (r.head?.getD .undefined)
    match ← step v with
    | .stop => return ()
    | _ => steps id step (n + 1) v r

/-- All steps of a loop have one frame. -/
def loopOver (named : Bool) (again : Option (Target × List Stmt)) (items : List Value)
    (step : Value → Render Flow) : Render Unit := do
  let id ← newLoop items.length
  inFrame { Frame.empty with loop := some ⟨id, named, again⟩ } (steps id step 0 .undefined items)

/-- The items for which a condition holds. -/
def sieve (target : Target) (filter : Expr) (items : List Value) : Render (List Value) := do
  let id ← newLoop items.length
  inFrame { Frame.empty with loop := some ⟨id, false, none⟩ } <| items.filterM fun v => do
    bind run target v
    truth (← eval run .undefined filter)

def itemsOf (source : Expr) : Render (List Value) := do
  let v ← eval run .undefined source
  lift source.lastLine (toItems (← settle v))

def escapingOf (v : Value) : Outcome Escaping :=
  match v.str? with
  | some "html" => .ok .html
  | some "json" => .ok .json
  | some "none" => .ok .off
  | some _ => refuse .badOperation "invalid value to autoescape tag"
  | none => .ok (if equal v (.bool true) then .html else .off)

def inEscaping {α : Type} (mode : Escaping) (act : Render α) : Render α := do
  let s ← get
  set { s with escaping := mode }
  let a ← act
  modify fun t => { t with escaping := s.escaping }
  return a

def emit (v : Value) : Render Unit := do
  write (← liftM ((← get).escaping.write (← settleText v)))

/-- The macro of a name, with what the names in it stand for now. -/
def newMacro (name : String) (params : List String) (defaults : List Expr) (body : List Stmt) :
    Render Value := do
  let names := (Expr.mentionsAll defaults ++ Stmt.mentionsAll body).filter (!params.contains ·)
  let closure ← enclose (names.filter (· ≠ "caller"))
  let s ← get
  set { s with macros :=
    s.macros.push ⟨s.page, params, defaults, body, closure, names.contains "caller"⟩ }
  return .callable name s.macros.size

def asBlocks (script : Script) : Table BlockStack :=
  script.blocks.map fun b => (b.1, ⟨[(script.page, b.2)], 0⟩)

/-- Runs a template in the place of a statement, with the names of that place. -/
def embed (script : Script) : Render Unit := do
  let s ← get
  let closure := (s.frames.head?).bind (·.closure)
  changeTop fun f => { f with closure := none }
  modify fun t => { t with
    outer := s.outer + includeCost, escaping := .html, blocks := asBlocks script }
  checkDepth
  wrap .failedInclude ("error in \"" ++ script.page ++ "\"") (run (.body script.page script.body))
  changeTop fun f => { f with closure := closure }
  modify fun t => { t with
    outer := s.outer, escaping := s.escaping, blocks := s.blocks, loaded := s.loaded }

def candidates (v : Value) : List Value :=
  match v with
  | .list items => items
  | .group key items => [key, .list items]
  | .map fields => fields.map (·.1)
  | v => [v]

def nameOf (v : Value) : Outcome String :=
  match v.str? with
  | some s => .ok s
  | none => refuse .badOperation "template name was not a string"

def firstScript : List Value → Render (Option Script)
  | [] => return none
  | v :: r => do
    let name ← liftM (nameOf v)
    match ← Render.script? name with
    | some script => return some script
    | none => firstScript r

def insertFirst (names : List Value) (optional : Bool) : Render Unit := do
  match ← firstScript names with
  | some script => embed run script
  | none =>
    if !optional && !names.isEmpty then
      Render.refuse .missingTemplate "tried to include non-existing template"

/-- Puts the running template under another one, and mutes what is left of it. -/
def extend (v : Value) : Render Unit := do
  let s ← get
  if s.parent.isSome then
    Render.refuse .badOperation "tried to extend a second time in a template"
  let name ← liftM (nameOf v)
  if s.loaded.contains name then Render.refuse .badOperation "cycle in template inheritance"
  match ← Render.script? name with
  | none => Render.refuse .missingTemplate ("template \"" ++ name ++ "\" does not exist")
  | some script =>
    let blocks := script.blocks.foldl (fun t b =>
      let stack := (t.get? b.1).getD ⟨[], 0⟩
      t.insert b.1 { stack with bodies := stack.bodies ++ [(script.page, b.2)] }) s.blocks
    modify fun t => { t with
      blocks := blocks, loaded := script.page :: s.loaded, parent := some script }
    openSink true

/-- The names that a template defines, and the text that it writes. -/
def importFrom (v : Value) : Render Value := do
  push .empty
  let text ← capture (insertFirst run (candidates v) false)
  let locals := ((← top?).map (·.locals)).getD []
  pop
  return .imported (locals.map fun p => (.plain p.1, p.2)) text

def importNames (v : Value) (names : List (String × String)) : Render Unit := do
  push .empty
  let _ ← capture (insertFirst run (candidates v) false)
  let values ← names.mapM fun n => return (← value? n.1).getD .undefined
  pop
  for (n, v) in (names.zip values).reverse do store n.2 v

mutual

def exec : Stmt → Render Flow
  | .text s => do
    write s
    return .usual
  | .emit e => do
    let v ← eval run .undefined e
    blame e.lastLine (emit v)
    return .usual
  | .loop target source filter again body otherwise => do
    let items ← itemsOf run source
    let items ← match filter with
      | some f => sieve run target f items
      | none => pure items
    loopOver true (if again then some (target, body) else none) items fun v => do
      bind run target v
      execAll body
    if items.isEmpty then execAll otherwise else return .usual
  | .choose test yes no => do
    if ← truth (← eval run .undefined test) then execAll yes else execAll no
  | .bindIn bindings body => do
    push .empty
    for (target, e) in bindings do bind run target (← eval run .undefined e)
    let flow ← execAll body
    pop
    return flow
  | .set target e => do
    bind run target (← eval run .undefined e)
    return .usual
  | .setBlock target filter body => do
    openSink false
    let flow ← execAll body
    let v := (← get).escaping.mark (← closeSink)
    let v ← match filter with
      | some f => eval run v f
      | none => pure v
    bind run target v
    return flow
  | .escape mode body => do
    let v ← eval run .undefined mode
    let escaping ← lift mode.lastLine (escapingOf v)
    inEscaping escaping (execAll body)
  | .filterBlock filter body => do
    openSink false
    let flow ← execAll body
    let v := (← get).escaping.mark (← closeSink)
    emit (← eval run v filter)
    return flow
  | .block line name => do
    if (← get).parent.isNone && !(← isMuted) then blame line (callBlock run name)
    return .usual
  | .extend line name => do
    let v ← eval run .undefined name
    blame line (extend v)
    return .usual
  | .insert line name optional => do
    let v ← eval run .undefined name
    blame line (insertFirst run (candidates v) optional)
    return .usual
  | .importAll line source name => do
    let v ← eval run .undefined source
    store name (← blame line (importFrom run v))
    return .usual
  | .importSome line source names => do
    let v ← eval run .undefined source
    blame line (importNames run v names)
    return .usual
  | .define name params defaults body => do
    store name (← newMacro name params defaults body)
    return .usual
  | .callBlock call params defaults body => do
    let caller ← newMacro "caller" params defaults body
    emit (← eval run caller call)
    return .usual
  | .perform call => do
    let _ ← eval run .undefined call
    return .usual
  | .stop => return .stop
  | .skip => return .skip

def execAll : List Stmt → Render Flow
  | [] => return .usual
  | s :: r => do
    match ← exec s with
    | .usual => execAll r
    | flow => return flow

end

end

end SiteTree.Template
