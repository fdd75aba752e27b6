import SiteTree.Table
import SiteTree.Template.Escape
import SiteTree.Template.ScriptReader

/-!
What a template knows and writes while it runs: frames of names, the text so far, the blocks, and
everything that can change under a name of its own.
-/

namespace SiteTree.Template

/-- Where names are looked up that a frame does not bind. -/
inductive Ground where
  | nothing
  | fields (table : Table Value)
  | closure (id : Nat)
  deriving Inhabited

structure LoopFrame where
  id : Nat
  named : Bool
  /-- What is run again when the loop calls itself. -/
  again : Option (Target × List Stmt)

structure Frame where
  locals : Table Value
  ground : Ground
  loop : Option LoopFrame
  closure : Option Nat

def Frame.empty : Frame := ⟨[], .nothing, none, none⟩

/-- How far a loop has come. -/
structure LoopRecord where
  position : Nat
  size : Nat
  depth : Nat
  previous : Value
  next : Value
  /-- The values that were last asked about. -/
  last : Option (List Value)
  deriving Inhabited

structure Macro where
  page : String
  params : List String
  defaults : List Expr
  body : List Stmt
  closure : Nat
  takesCaller : Bool
  deriving Inhabited

/-- The bodies of one block, with the names of their templates, the one that counts first, and
how many of them have been passed by. -/
structure BlockStack where
  bodies : List (String × List Stmt)
  passed : Nat

/-- A text in the making, unless nobody wants it. -/
structure Sink where
  text : String
  muted : Bool

structure State where
  load : String → Outcome (Option String)
  page : String
  frames : List Frame
  /-- The depth at which this template was called. -/
  outer : Nat
  sinks : List Sink
  escaping : Escaping
  blocks : Table BlockStack
  currentBlock : Option String
  loaded : List String
  parent : Option Script
  macros : Array Macro
  closures : Array (Table Value)
  spaces : Array (Table Value)
  loops : Array LoopRecord

abbrev Render := StateT State (Except PageFault)

namespace Render

def lift {α : Type} (line : Nat) (o : Outcome α) : Render α := fun s =>
  match o with
  | .ok a => .ok (a, s)
  | .error fault => .error (fault.placed s.page line)

def blame {α : Type} (line : Nat) (act : Render α) : Render α := fun s =>
  match act s with
  | .ok r => .ok r
  | .error fault => .error (fault.placed s.page line)

def wrap {α : Type} (kind : PageFaultKind) (detail : String) (act : Render α) : Render α := fun s =>
  match act s with
  | .ok r => .ok r
  | .error _ => .error (.of kind detail)

def refuse {α : Type} (kind : PageFaultKind) (detail : String) : Render α :=
  throw (.of kind detail)

def groundValue? (s : State) (ground : Ground) (name : String) : Option Value :=
  match ground with
  | .nothing => none
  | .fields table => table.get? name
  | .closure id => (s.closures[id]?).bind (·.get? name)

def frameValue? (s : State) (name : String) (f : Frame) : Option Value :=
  (f.locals.get? name).or <|
    (f.loop.bind fun l => if l.named && name = "loop" then some (.loop l.id) else none).or <|
      groundValue? s f.ground name

def builtins : List String := ["range", "dict", "debug", "namespace"]

def value? (name : String) : Render (Option Value) := do
  let s ← get
  return (s.frames.findSome? (frameValue? s name)).or
    (if builtins.contains name then some (.builtin name) else none)

def changeTop (f : Frame → Frame) : Render Unit := modify fun s =>
  match s.frames with
  | top :: r => { s with frames := f top :: r }
  | [] => s

def top? : Render (Option Frame) := return (← get).frames.head?

/-- Binds a name in the innermost frame, and for the macros that were defined in it. -/
def store (name : String) (value : Value) : Render Unit := do
  if let some id := (← top?).bind (·.closure) then
    modify fun s => { s with closures := s.closures.modify id (·.insert name value) }
  changeTop fun f => { f with locals := f.locals.insert name value }

def ownClosure : Render Nat := do
  match (← top?).bind (·.closure) with
  | some id => return id
  | none =>
    let id := (← get).closures.size
    modify fun s => { s with closures := s.closures.push [] }
    changeTop fun f => { f with closure := some id }
    return id

/-- Keeps the values that names have now, unless they were kept before. -/
def enclose (names : List String) : Render Nat := do
  let id ← ownClosure
  for name in names do
    let known := (((← get).closures[id]?).bind (·.get? name)).isSome
    if !known then
      let v := (← value? name).getD .undefined
      modify fun s => { s with closures := s.closures.modify id (·.insert name v) }
  return id

/-- Calls and frames may not be nested more deeply than this. -/
def maxDepth : Nat := 500

def checkDepth : Render Unit := do
  let s ← get
  if maxDepth < s.outer + s.frames.length then refuse .badOperation "recursion limit exceeded"

def push (f : Frame) : Render Unit := do
  checkDepth
  modify fun s => { s with frames := f :: s.frames }

def pop : Render Unit := modify fun s => { s with frames := s.frames.tail }

def inFrame {α : Type} (f : Frame) (act : Render α) : Render α := do
  push f
  let a ← act
  pop
  return a

def write (text : String) : Render Unit := modify fun s =>
  match s.sinks with
  | sink :: r => { s with sinks := (if sink.muted then sink else ⟨sink.text ++ text, false⟩) :: r }
  | [] => s

def isMuted : Render Bool := return (← get).sinks.head?.any (·.muted)

def openSink (muted : Bool) : Render Unit :=
  modify fun s => { s with sinks := ⟨"", muted⟩ :: s.sinks }

def closeSink : Render String := do
  let s ← get
  set { s with sinks := s.sinks.tail }
  return (s.sinks.head?.map (·.text)).getD ""

def capture (act : Render Unit) : Render String := do
  openSink false
  act
  closeSink

def captured (act : Render Unit) : Render Value := do
  let text ← capture act
  return (← get).escaping.mark text

def loopText (r : LoopRecord) : String := "<loop " ++ toString r.position ++ "/" ++ toString r.size ++ ">"

/-- What a value is at the moment. -/
def settle (v : Value) : Render Value := do
  match v with
  | .space id => return .map ((((← get).spaces[id]?).getD []).map fun p => (.plain p.1, p.2))
  | v => return v

def settleText (v : Value) : Render Value := do
  match v with
  | .loop id => return .plain (((← get).loops[id]?.map loopText).getD "")
  | v => settle v

def truth (v : Value) : Render Bool := return (← settle v).isTrue

def currentLoop? : Render (Option LoopFrame) := return (← get).frames.findSome? (·.loop)

def script? (name : String) : Render (Option Script) := do
  match (← get).load name with
  | .error fault => throw fault
  | .ok none => return none
  | .ok (some text) => match Script.ofText name text with
    | .ok script => return some script
    | .error fault => throw fault

end Render

end SiteTree.Template
