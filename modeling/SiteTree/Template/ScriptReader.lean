import SiteTree.Template.ExprReader

/-!
Reading statements and whole templates.
-/

namespace SiteTree.Template

open Read

/-- Reads statements up to a tag that starts with a wanted word. -/
abbrev ReadBody := List String → Read (List Stmt)

def reserved : List String := ["true", "True", "false", "False", "none", "None", "loop", "self"]

def ownName : Read String := do
  let id ← identifier
  if reserved.contains id then malformed ("cannot assign to reserved variable name " ++ id)
  else return id

def fieldsOf : Nat → Expr → Read Target
  | 0, _ => malformed "unexpected token"
  | n + 1, owner => do
    let name ← identifier
    if ← skipsMark "." then fieldsOf n (.field owner name) else return .field owner name

def dottedTarget : Read Target := do
  let id ← ownName
  let line ← line
  if ← skipsMark "." then fieldsOf (← left) (.name line id) else return .name id

def endsTargets (t : Token) : Bool :=
  t.isMark ")" || t.isCloseOutput || t.isCloseTag || t.isWord "in"

/-- Targets with commas between them, and whether there was a comma. -/
def targetsFrom (part : Read Target) : Nat → Bool → Read (List Target × Bool)
  | 0, _ => malformed "unexpected token"
  | n + 1, first => do
    if !first then wantMark ","
    if ← sees endsTargets then return ([], !first)
    let target ← part
    if ← sees (·.isMark ",") then
      let (r, _) ← targetsFrom part n false
      return (target :: r, true)
    else return ([target], !first)

def targets : Nat → Read Target
  | 0 => malformed "template exceeds maximum recursion limits"
  | n + 1 => do
    let start := ((← get).rest.head?.map (·.line)).getD (← line)
    let part : Read Target := do
      if ← skipsMark "(" then
        let target ← targets n
        wantMark ")"
        return target
      else return .name (← ownName)
    match ← targetsFrom part (← left) true with
    | ([target], false) => return target
    | (parts, _) => return .parts start parts

def anyTarget : Read Target := do targets (← left)

def bracketedTarget (single : Read Target) : Read Target := do
  if ← skipsMark "(" then
    let target ← anyTarget
    wantMark ")"
    return target
  else single

def skipTag : Read Unit := do
  let _ ← next?

def readLoop (body : ReadBody) : Read Stmt := do
  let target ← anyTarget
  wantWord "in"
  let source ← simpleExpr
  let filter ← if ← skipsWord "if" then some <$> expr else pure none
  let again ← skipsWord "recursive"
  wantCloseTag
  let steps ← inside true (← get).inMacro (body ["endfor", "else"])
  let otherwise ← if ← skipsWord "else" then (do wantCloseTag; body ["endfor"]) else pure []
  skipTag
  return .loop target source filter again steps otherwise

def readChoice (body : ReadBody) : Nat → Read Stmt
  | 0 => malformed "unexpected token"
  | n + 1 => do
    let test ← expr
    wantCloseTag
    let yes ← body ["endif", "else", "elif"]
    match ← next? with
    | some (.word "else") =>
      wantCloseTag
      let no ← body ["endif"]
      skipTag
      return .choose test yes no
    | some (.word "elif") => return .choose test yes [← readChoice body n]
    | _ => return .choose test yes []

def bindingsFrom : Nat → Bool → Read (List (Target × Expr))
  | 0, _ => malformed "unexpected token"
  | n + 1, first => do
    if ← sees (·.isCloseTag) then return []
    if !first then wantMark ","
    let target ← bracketedTarget (.name <$> ownName)
    wantMark "="
    let value ← expr
    return (target, value) :: (← bindingsFrom n false)

def readScoped (body : ReadBody) : Read Stmt := do
  let bindings ← bindingsFrom (← left) true
  wantCloseTag
  let inner ← body ["endwith"]
  skipTag
  return .bindIn bindings inner

/-- One filter behind the other, applied to what was captured. -/
def filtersFrom : Nat → Option Expr → Read (Option Expr)
  | 0, subject => return subject
  | n + 1, subject => do
    if ← sees (·.isCloseTag) then return subject
    if subject.isSome then wantMark "|"
    let name ← identifier
    let line ← line
    let args ← optionalArguments expr simpleExpr
    let subject := subject.getD (.captured line)
    filtersFrom n (some (.filter name subject (args.map (·.1)) (args.map (·.2))))

def filters : Read Expr := do
  match ← filtersFrom (← left) none with
  | some e => return e
  | none => malformed "expected a filter"

def readSet (body : ReadBody) : Read Stmt := do
  let bracket ← sees (·.isMark "(")
  let target ← bracketedTarget dottedTarget
  if !bracket && (← sees fun t => t.isCloseTag || t.isMark "|") then
    let filter ← if ← skipsMark "|" then some <$> filters else pure none
    wantCloseTag
    let inner ← body ["endset"]
    skipTag
    return .setBlock target filter inner
  else
    wantMark "="
    return .set target (← expr)

def readEscape (body : ReadBody) : Read Stmt := do
  let mode ← expr
  wantCloseTag
  let inner ← body ["endautoescape"]
  skipTag
  return .escape mode inner

def readFilterBlock (body : ReadBody) : Read Stmt := do
  let filter ← filters
  wantCloseTag
  let inner ← body ["endfilter"]
  skipTag
  return .filterBlock filter inner

/-- Words on what an included template may see, which count for nothing. -/
def skipContext : Read Unit := do
  if ← skips (·.isWordOf ["with", "without"]) then wantWord "context"

def readInsert (line : Nat) : Read Stmt := do
  let name ← expr
  skipContext
  if ← skipsWord "ignore" then
    wantWord "missing"
    skipContext
    return .insert line name true
  else return .insert line name false

def readImport (line : Nat) : Read Stmt := do
  let source ← expr
  wantWord "as"
  let name ← ownName
  skipContext
  return .importAll line source name

def endsImports (t : Token) : Bool := t.isCloseTag || t.isWordOf ["with", "without"]

def importsFrom : Nat → Bool → Read (List (String × String))
  | 0, _ => malformed "unexpected token"
  | n + 1, first => do
    if ← sees endsImports then return []
    if !first then
      wantMark ","
      if ← sees endsImports then return []
    let name ← ownName
    let own ← if ← skipsWord "as" then ownName else pure name
    return (name, own) :: (← importsFrom n false)

def readImportSome (line : Nat) : Read Stmt := do
  let source ← expr
  wantWord "import"
  let names ← importsFrom (← left) true
  skipContext
  return .importSome line source names

/-- Parameters; behind the first with a default, all have one. -/
def parametersFrom : Nat → Bool → Bool → Read (List (String × Option Expr))
  | 0, _, _ => malformed "unexpected token"
  | n + 1, first, defaults => do
    if ← skipsMark ")" then return []
    if !first then
      wantMark ","
      if ← skipsMark ")" then return []
    let name ← ownName
    if ← skipsMark "=" then
      let value ← expr
      return (name, some value) :: (← parametersFrom n false true)
    else if defaults then
      wantMark "="
      parametersFrom n false true
    else return (name, none) :: (← parametersFrom n false false)

def parameters : Read (List (String × Option Expr)) := do parametersFrom (← left) true false

def macroBody (body : ReadBody) (stop : String) : Read (List Stmt) := do
  wantCloseTag
  let inner ← inside false true (body [stop])
  skipTag
  return inner

def readDefine (body : ReadBody) : Read Stmt := do
  let name ← identifier
  wantMark "("
  let params ← parameters
  let inner ← macroBody body "endmacro"
  return .define name (params.map (·.1)) (params.filterMap (·.2)) inner

def isCall : Expr → Bool
  | .call .. => true
  | _ => false

/-- Hands what is captured over to a call as its caller. -/
def withCaller? : Expr → Option Expr
  | .call callee roles args =>
    let line := (Expr.call callee roles args).lastLine
    some (.call callee (roles ++ [.named "caller"]) (args ++ [.captured line]))
  | _ => none

def readCallBlock (body : ReadBody) : Read Stmt := do
  let params ← if ← skipsMark "(" then parameters else pure []
  match withCaller? (← expr) with
  | none => malformed "expected call expression in call block"
  | some call =>
    let inner ← macroBody body "endcall"
    return .callBlock call (params.map (·.1)) (params.filterMap (·.2)) inner

def readPerform : Read Stmt := do
  let call ← expr
  if isCall call then return .perform call else malformed "expected call expression in do block"

/-- A block may be closed with its name. -/
def readBlock (line : Nat) (body : ReadBody) : Read Stmt := do
  let r ← get
  if r.inMacro then malformed "block tags in macros are not allowed"
  let name ← identifier
  if (r.blocks.get? name).isSome then malformed ("block '" ++ name ++ "' defined twice")
  modify fun s => { s with blocks := s.blocks.insert name [] }
  wantCloseTag
  let inner ← inside false r.inMacro (body ["endblock"])
  skipTag
  match ← peek? with
  | some (.word last) =>
    if last ≠ name then malformed "mismatching name on block"
    skipTag
  | _ => pure ()
  modify fun s => { s with blocks := s.blocks.insert name inner }
  return .block line name

def readInLoop (stmt : Stmt) (word : String) : Read Stmt := do
  if (← get).inLoop then return stmt
  else malformed ("'" ++ word ++ "' must be placed inside a loop")

/-- A statement is known by its first word. -/
def statement (body : ReadBody) : Read Stmt := do
  let t ← next "block keyword"
  let line ← line
  match t with
  | .word "for" => readLoop body
  | .word "if" => readChoice body (← left)
  | .word "with" => readScoped body
  | .word "set" => readSet body
  | .word "autoescape" => readEscape body
  | .word "filter" => readFilterBlock body
  | .word "block" => readBlock line body
  | .word "extends" => return .extend line (← expr)
  | .word "include" => readInsert line
  | .word "import" => readImport line
  | .word "from" => readImportSome line
  | .word "macro" => readDefine body
  | .word "call" => readCallBlock body
  | .word "do" => readPerform
  | .word "continue" => readInLoop .skip "continue"
  | .word "break" => readInLoop .stop "break"
  | .word w => malformed ("unknown statement " ++ w)
  | _ => malformed "unknown token, expected statement"

/-- Text and tags up to a tag that starts with a wanted word, or up to the end. -/
def bodyFrom (statement : Read Stmt) (stops : List String) : Nat → Read (List Stmt)
  | 0 => return []
  | n + 1 => do
    match ← next? with
    | none => return []
    | some (.text s) => return .text s :: (← bodyFrom statement stops n)
    | some .openOutput =>
      let e ← expr
      want (·.isCloseOutput) "end of variable block"
      return .emit e :: (← bodyFrom statement stops n)
    | some _ =>
      match ← peek? with
      | none => malformed "unexpected end of input, expected keyword"
      | some t =>
        if t.isWordOf stops then return []
        let stmt ← statement
        wantCloseTag
        return stmt :: (← bodyFrom statement stops n)

def bodyWithin : Nat → ReadBody
  | 0, _ => malformed "template exceeds maximum recursion limits"
  | n + 1, stops => do bodyFrom (deeper (statement (bodyWithin n))) stops (← left)

def Script.ofText (page text : String) : Except PageFault Script :=
  let lexemes := Lexemes.ofText text
  let start : Reading := ⟨lexemes.items, lexemes.fault, 0, 0, false, false, []⟩
  match (bodyWithin (maxDepth + 1) []).run start with
  | .ok (body, r) => .ok ⟨page, body, r.blocks⟩
  | .error fault => .error { fault with page := some page }

end SiteTree.Template
