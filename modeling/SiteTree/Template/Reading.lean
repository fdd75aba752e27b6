import SiteTree.Table
import SiteTree.Template.Basic
import SiteTree.Template.Token

/-!
Reading tokens one after the other. A mistake is blamed on the line of the token that was read last.
-/

namespace SiteTree.Template

/-- What is left to read, what surrounds it, and the bodies of the blocks so far. -/
structure Reading where
  rest : List Lexeme
  fault : Option PageFault
  line : Nat
  depth : Nat
  inLoop : Bool
  inMacro : Bool
  blocks : Table (List Stmt)

abbrev Read := StateT Reading (Except PageFault)

namespace Token

def isMark (m : String) : Token → Bool
  | .mark s => s = m
  | _ => false

def isWord (w : String) : Token → Bool
  | .word s => s = w
  | _ => false

def isWordOf (ws : List String) : Token → Bool
  | .word s => ws.contains s
  | _ => false

def isCloseTag : Token → Bool
  | .closeTag => true
  | _ => false

def isCloseOutput : Token → Bool
  | .closeOutput => true
  | _ => false

end Token

namespace Read

def malformed {α : Type} (detail : String) : Read α := do
  throw ⟨.badSyntax, none, some (← get).line, detail⟩

def line : Read Nat := return (← get).line

/-- A mistake among the tokens, blamed on the last good one if it has no line of its own. -/
def stumble {α : Type} (fault : PageFault) : Read α := do
  throw { fault with line := fault.line.or (some (← get).line) }

def left : Read Nat := return (← get).rest.length + 1

def peek? : Read (Option Token) := do
  let r ← get
  match r.rest, r.fault with
  | l :: _, _ => return some l.token
  | [], some fault => stumble fault
  | [], none => return none

def next? : Read (Option Token) := do
  let r ← get
  match r.rest, r.fault with
  | l :: rest, _ =>
    set { r with rest := rest, line := l.line }
    return some l.token
  | [], some fault => stumble fault
  | [], none => return none

def next (wanted : String) : Read Token := do
  match ← next? with
  | some t => return t
  | none => malformed ("unexpected end of input, expected " ++ wanted)

def want (p : Token → Bool) (wanted : String) : Read Unit := do
  let t ← next wanted
  if p t then return () else malformed ("unexpected token, expected " ++ wanted)

def wantMark (m : String) : Read Unit := want (·.isMark m) m

def wantWord (w : String) : Read Unit := want (·.isWord w) w

def wantCloseTag : Read Unit := want (·.isCloseTag) "end of block"

def identifier : Read String := do
  match ← next "identifier" with
  | .word s => return s
  | _ => malformed "unexpected token, expected identifier"

def sees (p : Token → Bool) : Read Bool := return (← peek?).any p

def skips (p : Token → Bool) : Read Bool := do
  if ← sees p then
    let _ ← next?
    return true
  else return false

def skipsMark (m : String) : Read Bool := skips (·.isMark m)

def skipsWord (w : String) : Read Bool := skips (·.isWord w)

/-- Expressions and statements may not be nested more deeply than this. -/
def maxDepth : Nat := 150

def deeper {α : Type} (act : Read α) : Read α := do
  let r ← get
  if maxDepth ≤ r.depth then malformed "template exceeds maximum recursion limits"
  else
    set { r with depth := r.depth + 1 }
    let a ← act
    modify fun s => { s with depth := r.depth }
    return a

/-- Reads with the loop and the macro around it forgotten or entered, as long as it takes. -/
def inside {α : Type} (inLoop inMacro : Bool) (act : Read α) : Read α := do
  let r ← get
  set { r with inLoop := inLoop, inMacro := inMacro }
  let a ← act
  modify fun s => { s with inLoop := r.inLoop, inMacro := r.inMacro }
  return a

/-- Reads parts with commas between them up to a mark, which is read too. A comma may come last. -/
def series {α : Type} (close : String) (part : Read α) : Nat → Bool → Read (List α)
  | 0, _ => malformed "unexpected token"
  | n + 1, first => do
    if ← skipsMark close then return []
    if !first then
      wantMark ","
      if ← skipsMark close then return []
    let a ← part
    let r ← series close part n false
    return a :: r

end Read

end SiteTree.Template
