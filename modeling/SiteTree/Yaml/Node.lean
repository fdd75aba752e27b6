import SiteTree.Yaml.Token

/-!
Nodes of a YAML document. After a mistake the nodes before it are still there, and the lists and
mappings around the mistake are marked as cut.
-/

namespace SiteTree.Yaml

structure Scalar where
  text : String
  style : Style
  tag : Option String
  deriving DecidableEq, Repr

/-- A mapping holds its keys and values in turn. An alias stands for the node with its number. -/
inductive Node where
  | scalar (s : Scalar)
  | alias (id : Nat)
  | sequence (tag : Option String) (items : List Node) (whole : Bool)
  | mapping (tag : Option String) (entries : List Node) (whole : Bool)
  deriving Repr, Inhabited

/-- What is left to read, and the anchors met so far: the number for each name, the nodes that
began with a number, latest first, and the nodes themselves. -/
structure Draft where
  tokens : List Token
  broken : Bool
  handles : List (String × String)
  names : List (String × Nat)
  starts : List (Nat × Nat)
  nodes : List (Nat × Node)
  events : Nat

abbrev Build := StateM Draft

namespace Build

def fail : Build Unit := modify fun d => { d with broken := true }

def peek : Build (Option Token) := do
  let d ← get
  match d.tokens with
  | t :: _ => return if d.broken then none else some t
  | [] => do
    fail
    return none

def drop : Build Unit := modify fun d => { d with tokens := d.tokens.drop 1 }

def count (n : Nat) : Build Unit := modify fun d => { d with events := d.events + n }

def isBroken : Build Bool := return (← get).broken

/-- An anchor gets the number of different names before it. -/
def begin? (anchor : Option String) : Build (Option Nat) := do
  match anchor with
  | none => return none
  | some name => do
    let d ← get
    let id := d.names.length
    let serial := d.starts.length
    set { d with names := (name, id) :: d.names.filter (·.1 ≠ name), starts := (id, serial) :: d.starts }
    return some serial

def finish (serial : Option Nat) (node : Node) : Build (Option Node) := do
  match serial with
  | some n => modify fun d => { d with nodes := (n, node) :: d.nodes }
  | none => pure ()
  return some node

structure Properties where
  anchor : Option String
  tag : Option (String × String)

/-- An anchor and a tag, in either order. -/
def properties : Nat → Properties → Build Properties
  | 0, p => return p
  | n + 1, p => do
    match ← peek, p.anchor, p.tag with
    | some (.anchor name), none, _ =>
      drop
      properties n { p with anchor := some name }
    | some (.tag handle rest), _, none =>
      drop
      properties n { p with tag := some (handle, rest) }
    | _, _, _ => return p

def tagOf : Option (String × String) → Build (Option String)
  | none => return none
  | some (handle, rest) => do
    if handle.isEmpty then return some rest
    else match (← get).handles.lookup handle with
      | some leading => return some (leading ++ rest)
      | none => do
        fail
        return none

def emptyScalar : Build Node := do
  count 1
  return .scalar ⟨"", .plain, none⟩

mutual

/-- A node in a block or between brackets; `none` if a mistake comes first. -/
def node (block dashed : Bool) : Nat → Build (Option Node)
  | 0 => do
    fail
    return none
  | n + 1 => do
    match ← peek with
    | some (.alias name) =>
      match (← get).names.lookup name with
      | some id => do
        drop
        count 1
        return some (.alias id)
      | none => do
        fail
        return none
    | _ =>
      let p ← properties 2 ⟨none, none⟩
      let tag ← tagOf p.tag
      match ← peek with
      | none => return none
      | some t =>
        match t, block with
        | .scalar text style, _ => do
          drop
          count 1
          let serial ← begin? p.anchor
          finish serial (.scalar ⟨text, style, tag.filter (· ≠ "!")⟩)
        | .flowSequence, _ => do
          drop
          let serial ← begin? p.anchor
          let items ← flowItems true n
          finishList serial tag items
        | .flowMapping, _ => do
          drop
          let serial ← begin? p.anchor
          let entries ← flowEntries true n
          finishMap serial tag entries
        | .blockSequence, true => do
          drop
          let serial ← begin? p.anchor
          let items ← blockItems n
          finishList serial tag items
        | .blockMapping, true => do
          drop
          let serial ← begin? p.anchor
          let entries ← blockEntries n
          finishMap serial tag entries
        | .blockEntry, _ =>
          if dashed then do
            let serial ← begin? p.anchor
            let items ← dashedItems n
            finishList serial tag items
          else bare p tag
        | _, _ => bare p tag

/-- An anchor or a tag with nothing after it is an empty scalar; nothing at all is a mistake. -/
def bare (p : Properties) (tag : Option String) : Build (Option Node) := do
  if p.anchor.isSome || p.tag.isSome then
    count 1
    let serial ← begin? p.anchor
    finish serial (.scalar ⟨"", .plain, tag⟩)
  else
    fail
    return none

def finishList (serial : Option Nat) (tag : Option String) (items : List Node) :
    Build (Option Node) := do
  let cut ← isBroken
  count 2
  finish serial (.sequence tag items !cut)

def finishMap (serial : Option Nat) (tag : Option String) (entries : List Node) :
    Build (Option Node) := do
  let cut ← isBroken
  count 2
  finish serial (.mapping tag entries !cut)

/-- A node and then what follows it, unless a mistake comes first. -/
def andThen (first : Build (Option Node)) (rest : Build (List Node)) : Build (List Node) := do
  match ← first with
  | none => return []
  | some a =>
    if ← isBroken then return [a]
    else return a :: (← rest)

/-- A node unless one of the given tokens comes, which leaves an empty scalar. -/
def nodeUnless (ends : Token → Bool) (read : Build (Option Node)) : Build (Option Node) := do
  match ← peek with
  | none => return none
  | some t => if ends t then return some (← emptyScalar) else read

def blockItems : Nat → Build (List Node)
  | 0 => do
    fail
    return []
  | n + 1 => do
    match ← peek with
    | some .blockEntry =>
      drop
      andThen (nodeUnless (fun t => t = .blockEntry || t = .blockEnd) (node true false n)) (blockItems n)
    | some .blockEnd =>
      drop
      return []
    | _ =>
      fail
      return []

/-- Items of a list that is not indented further than the mapping around it. -/
def dashedItems : Nat → Build (List Node)
  | 0 => do
    fail
    return []
  | n + 1 => do
    match ← peek with
    | some .blockEntry =>
      drop
      andThen (nodeUnless (fun t => t = .blockEntry || t = .key || t = .value || t = .blockEnd)
        (node true false n)) (dashedItems n)
    | _ => return []

def blockEntries : Nat → Build (List Node)
  | 0 => do
    fail
    return []
  | n + 1 => do
    let inBlock (t : Token) : Bool := t = .key || t = .value || t = .blockEnd
    match ← peek with
    | some .key =>
      drop
      andThen (nodeUnless inBlock (node true true n)) (blockValue n)
    | some .blockEnd =>
      drop
      return []
    | _ =>
      fail
      return []

def blockValue : Nat → Build (List Node)
  | 0 => do
    fail
    return []
  | n + 1 => do
    let inBlock (t : Token) : Bool := t = .key || t = .value || t = .blockEnd
    match ← peek with
    | none => return []
    | some .value =>
      drop
      andThen (nodeUnless inBlock (node true true n)) (blockEntries n)
    | some _ => andThen (some <$> emptyScalar) (blockEntries n)

def flowItems (first : Bool) : Nat → Build (List Node)
  | 0 => do
    fail
    return []
  | n + 1 => do
    match ← peek with
    | some .flowSequenceEnd =>
      drop
      return []
    | none => return []
    | some t =>
      if !first && t ≠ .flowEntry then
        fail
        return []
      else
        if !first then drop
        match ← peek with
        | none => return []
        | some .flowSequenceEnd =>
          drop
          return []
        | some .key =>
          drop
          andThen (flowPair n) (flowItems false n)
        | some _ => andThen (node false false n) (flowItems false n)

/-- A mapping of one key inside the brackets of a list. -/
def flowPair : Nat → Build (Option Node)
  | 0 => do
    fail
    return none
  | n + 1 => do
    let entries ← andThen (flowPairKey n) (flowPairValue n)
    let cut ← isBroken
    count 2
    return some (.mapping none entries !cut)

def flowPairKey : Nat → Build (Option Node)
  | 0 => do
    fail
    return none
  | n + 1 => do
    match ← peek with
    | none => return none
    | some t =>
      if t = .value || t = .flowEntry || t = .flowSequenceEnd then
        drop
        return some (← emptyScalar)
      else node false false n

def flowPairValue : Nat → Build (List Node)
  | 0 => do
    fail
    return []
  | n + 1 => do
    match ← peek with
    | none => return []
    | some .value =>
      drop
      andThen (nodeUnless (fun t => t = .flowEntry || t = .flowSequenceEnd) (node false false n)) (return [])
    | some _ => return [← emptyScalar]

def flowEntries (first : Bool) : Nat → Build (List Node)
  | 0 => do
    fail
    return []
  | n + 1 => do
    match ← peek with
    | some .flowMappingEnd =>
      drop
      return []
    | none => return []
    | some t =>
      if !first && t ≠ .flowEntry then
        fail
        return []
      else
        if !first then drop
        match ← peek with
        | none => return []
        | some .flowMappingEnd =>
          drop
          return []
        | some .key =>
          drop
          andThen (nodeUnless (fun t => t = .value || t = .flowEntry || t = .flowMappingEnd)
            (node false false n)) (flowValue n)
        | some _ =>
          andThen (node false false n) (andThen (some <$> emptyScalar) (flowEntries false n))

def flowValue : Nat → Build (List Node)
  | 0 => do
    fail
    return []
  | n + 1 => do
    match ← peek with
    | none => return []
    | some .value =>
      drop
      andThen (nodeUnless (fun t => t = .flowEntry || t = .flowMappingEnd) (node false false n))
        (flowEntries false n)
    | some _ => andThen (some <$> emptyScalar) (flowEntries false n)

end

/-- Directives in front of a document. A version is given at most once, and a handle too. -/
def directives : Nat → Bool → List String → Build Unit
  | 0, _, _ => return
  | n + 1, versioned, seen => do
    match ← peek with
    | some (.version supported) =>
      if versioned || !supported then fail
      else
        drop
        directives n true seen
    | some (.tagHandle handle leading) =>
      if seen.contains handle then fail
      else
        drop
        modify fun d => { d with handles := (handle, leading) :: d.handles }
        directives n versioned (handle :: seen)
    | _ => return

def root (fuel : Nat) : Build (Option Node) := do
  match ← peek with
  | none => return none
  | some .streamEnd => return none
  | some t =>
    let explicit := match t with
      | .version _ => true
      | .tagHandle _ _ => true
      | .documentStart => true
      | _ => false
    if !explicit then node true false fuel
    else
      directives fuel false []
      match ← peek with
      | some .documentStart =>
        drop
        nodeUnless (fun
          | .version _ => true
          | .tagHandle _ _ => true
          | .documentStart => true
          | .documentEnd => true
          | .streamEnd => true
          | _ => false) (node true false fuel)
      | _ =>
        fail
        return none

end Build

/-- The first document of a text. It is sound if nothing but its end follows it. -/
structure Document where
  root : Option Node
  anchors : Nat → Option Node
  events : Nat
  sound : Bool
  blank : Bool

/-- Only marks for the end of the document, and the end of the text. -/
def endsHere : List Token → Bool
  | [.streamEnd] => true
  | .documentEnd :: r => endsHere r
  | _ => false

def Document.ofText (text : String) : Document :=
  let tokens := Token.ofText text
  let handles := [("!", "!"), ("!!", "tag:yaml.org,2002:")]
  let (root, d) := (Build.root (4 * tokens.length + 8)).run ⟨tokens, false, handles, [], [], [], 0⟩
  let find (id : Nat) : Option Node := (d.starts.lookup id).bind fun serial => d.nodes.lookup serial
  ⟨root, find, d.events, !d.broken && endsHere d.tokens, root.isNone && tokens = [.streamEnd]⟩

end SiteTree.Yaml
