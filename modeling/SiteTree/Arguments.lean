import SiteTree.Path
import SiteTree.Text.Split

/-!
The arguments of the command line. A value waits until the next argument shows that it is
complete; only then is it looked at. An argument that is not known is refused at once, before the
value that waits.
-/

namespace SiteTree

open Text

structure Arguments where
  source : Option Path
  output : Option Path
  ignore : List String
  scope : List (String × String)
  links : List String
  noClean : Bool
  hash : Bool
  config : Option Path
  verbose : Bool
  deriving DecidableEq, Repr

namespace Arguments

def none : Arguments := ⟨.none, .none, [], [], [], false, false, .none, false⟩

/-- Why the arguments are not taken; asking for help or the version counts too. -/
inductive Refusal where
  | unknown
  | badValue
  | badPair (text : String)
  | repeated
  | needlessValue
  | help
  | version
  deriving DecidableEq, Repr

inductive Setting where
  | source
  | output
  | ignore
  | scope
  | link
  | config
  deriving DecidableEq, Repr

inductive Switch where
  | noClean
  | hash
  | verbose
  | help
  | version
  deriving DecidableEq, Repr

inductive Flag where
  | setting (s : Setting)
  | switch (s : Switch)
  deriving DecidableEq, Repr

def longFlags : List (String × Flag) :=
  [("output", .setting .output), ("ignore", .setting .ignore), ("scope", .setting .scope),
   ("transform", .setting .link), ("loader", .setting .link), ("config", .setting .config),
   ("no-clean", .switch .noClean), ("hash", .switch .hash), ("verbose", .switch .verbose),
   ("help", .switch .help), ("version", .switch .version)]

def shortFlags : List (Char × Flag) :=
  [('o', .setting .output), ('i', .setting .ignore), ('s', .setting .scope), ('t', .setting .link),
   ('l', .setting .link), ('c', .setting .config), ('v', .switch .verbose), ('h', .switch .help),
   ('V', .switch .version)]

/-- A key and a value around the first equals sign. The key is not empty. -/
def pair? (text : String) : Option (String × String) :=
  match splitFirst? '=' text.toList with
  | some (c :: key, value) => some (String.ofList (c :: key), String.ofList value)
  | _ => .none

def pairMessage (text : String) : String := "invalid scope '" ++ text ++ "', expected KEY=VALUE"

def once (old : Option Path) (value : String) : Except Refusal (Option Path) :=
  if old.isSome then .error .repeated
  else if value.isEmpty then .error .badValue
  else .ok (some ⟨value⟩)

def assign (a : Arguments) (s : Setting) (value : String) : Except Refusal Arguments :=
  match s with
  | .source => do return { a with source := ← once a.source value }
  | .output => do return { a with output := ← once a.output value }
  | .config => do return { a with config := ← once a.config value }
  | .ignore => .ok { a with ignore := a.ignore ++ [value] }
  | .link => .ok { a with links := a.links ++ [value] }
  | .scope => match pair? value with
    | some p => .ok { a with scope := a.scope ++ [p] }
    | .none => .error (.badPair value)

def turnOn (a : Arguments) (s : Switch) : Except Refusal Arguments :=
  match s with
  | .noClean => if a.noClean then .error .repeated else .ok { a with noClean := true }
  | .hash => if a.hash then .error .repeated else .ok { a with hash := true }
  | .verbose => if a.verbose then .error .repeated else .ok { a with verbose := true }
  | .help => .error .help
  | .version => .error .version

/-- What is settled, the setting that waits with its value if it has one, and whether all that
follows is a value. -/
structure Draft where
  settled : Arguments
  waiting : Option (Setting × Option String)
  sourceSeen : Bool
  valuesOnly : Bool

def Draft.settle (d : Draft) : Except Refusal Draft :=
  match d.waiting with
  | .none => .ok d
  | some (_, .none) => .error .badValue
  | some (s, some value) => do
    let a ← d.settled.assign s value
    return { d with settled := a, waiting := .none }

def Draft.attach (d : Draft) (s : Setting) (value : List Char) : Except Refusal Draft := do
  let d ← d.settle
  let a ← d.settled.assign s (String.ofList value)
  return { d with settled := a }

def Draft.await (d : Draft) (s : Setting) : Except Refusal Draft := do
  let d ← d.settle
  return { d with waiting := some (s, .none) }

def Draft.flip (d : Draft) (s : Switch) : Except Refusal Draft := do
  let d ← d.settle
  let a ← d.settled.turnOn s
  return { d with settled := a }

def Draft.long (d : Draft) (body : List Char) : Except Refusal Draft :=
  let (name, value) := match splitFirst? '=' body with
    | some (name, value) => (name, some value)
    | .none => (body, .none)
  match longFlags.lookup (String.ofList name), value with
  | .none, _ => .error .unknown
  | some (.setting s), some value => d.attach s value
  | some (.setting s), .none => d.await s
  | some (.switch _), some _ => .error .needlessValue
  | some (.switch s), .none => d.flip s

/-- Several short flags in one argument. The first that takes a value takes all that follows it. -/
def Draft.short (d : Draft) : List Char → Except Refusal Draft
  | [] => .ok d
  | c :: r =>
    match shortFlags.lookup c with
    | .none => .error .unknown
    | some (.switch s) => do
      let d ← d.flip s
      Draft.short d r
    | some (.setting s) =>
      match r with
      | [] => d.await s
      | '=' :: value => d.attach s value
      | value => d.attach s value

/-- Only the first value that no setting waits for is taken, as the source. -/
def Draft.value (d : Draft) (text : String) : Except Refusal Draft :=
  match d.waiting, d.valuesOnly with
  | some (s, .none), false => .ok { d with waiting := some (s, some text) }
  | _, _ =>
    if d.sourceSeen then .error .unknown
    else do
      let d ← d.settle
      return { d with waiting := some (.source, some text), sourceSeen := true }

def Draft.step (d : Draft) (arg : String) : Except Refusal Draft :=
  if d.valuesOnly then d.value arg
  else match arg.toList with
    | ['-', '-'] => .ok { d with valuesOnly := true }
    | '-' :: '-' :: body => d.long body
    | ['-'] => d.value arg
    | '-' :: body => d.short body
    | _ => d.value arg

def ofList (args : List String) : Except Refusal Arguments := do
  let d ← args.foldlM Draft.step ⟨none, .none, false, false⟩
  let d ← d.settle
  return d.settled

end Arguments

end SiteTree
