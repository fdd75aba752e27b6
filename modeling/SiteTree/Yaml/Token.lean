import SiteTree.Yaml.Scalar

/-!
Tokens of a YAML text. Where a block or a key begins is known only later, at the colon after the
key, so some tokens are put in front of others that were read before them.
-/

namespace SiteTree.Yaml

inductive Token where
  | streamEnd
  | version (supported : Bool)
  | tagHandle (handle leading : String)
  | documentStart
  | documentEnd
  | blockSequence
  | blockMapping
  | blockEnd
  | flowSequence
  | flowSequenceEnd
  | flowMapping
  | flowMappingEnd
  | blockEntry
  | flowEntry
  | key
  | value
  | alias (name : String)
  | anchor (name : String)
  | tag (handle rest : String)
  | scalar (text : String) (style : Style)
  deriving DecidableEq, Repr

/-- A token that turns out to be a key if a colon follows it on its line. -/
structure KeyMark where
  required : Bool
  number : Nat
  line : Nat
  index : Nat
  column : Nat

/-- How far the text was read. There is one place for a key on each level of brackets, the inner
one first, and the tokens are kept with the last one first. -/
structure Scan where
  cursor : Cursor
  indent : Int
  indents : List Int
  keyAllowed : Bool
  key : Option KeyMark
  outerKeys : List (Option KeyMark)
  tokens : List Token

namespace Scan

def start (s : List Char) : Scan := ⟨.start s, -1, [], true, none, [], []⟩

def inFlow (s : Scan) : Bool := !s.outerKeys.isEmpty

def push (s : Scan) (t : Token) : Scan := { s with tokens := t :: s.tokens }

def skip (s : Scan) : Scan := { s with cursor := s.cursor.skip }

def insert (s : Scan) (number : Nat) (t : Token) : Scan :=
  let after := s.tokens.length - number
  { s with tokens := s.tokens.take after ++ t :: s.tokens.drop after }

/-- A key ends on its own line and has at most 1024 characters. -/
def isStale (s : Scan) (k : KeyMark) : Bool :=
  k.line < s.cursor.line || k.index + 1024 < s.cursor.index

/-- Forgets a key that has become too long, unless one is required there. -/
def refresh? (s : Scan) : Option KeyMark → Option (Option KeyMark)
  | none => some none
  | some k => if s.isStale k then (if k.required then none else some none) else some (some k)

def dropStale? (s : Scan) : Option Scan := do
  let key ← s.refresh? s.key
  let outer ← s.outerKeys.mapM s.refresh?
  some { s with key := key, outerKeys := outer }

def forgetKey? (s : Scan) : Option Scan :=
  match s.key with
  | some k => if k.required then none else some { s with key := none }
  | none => some s

/-- Notes that the token that comes next may be a key. -/
def noteKey? (s : Scan) : Option Scan :=
  if s.keyAllowed then do
    let required := !s.inFlow && s.indent = s.cursor.column
    let s ← s.forgetKey?
    some { s with key := some ⟨required, s.tokens.length, s.cursor.line, s.cursor.index, s.cursor.column⟩ }
  else some s

def unroll (column : Int) : Nat → Scan → Scan
  | 0, s => s
  | n + 1, s =>
    if s.inFlow || s.indent ≤ column then s
    else
      let s := s.push .blockEnd
      match s.indents with
      | i :: r => unroll column n { s with indent := i, indents := r }
      | [] => s

def unrollTo (s : Scan) (column : Int) : Scan := unroll column (s.indents.length + 1) s

/-- Begins a block if this column is further in than the current one. -/
def roll (s : Scan) (column : Nat) (number : Option Nat) (t : Token) : Scan :=
  if s.inFlow || (column : Int) ≤ s.indent then s
  else
    let s := { s with indent := column, indents := s.indent :: s.indents }
    match number with
    | some n => s.insert n t
    | none => s.push t

def allowKey (s : Scan) (b : Bool) : Scan := { s with keyAllowed := b }

/-- Steps over gaps, comments and line breaks. A tab is no gap where a key may begin. -/
def skipToToken : Nat → Scan → Scan
  | 0, s => s
  | n + 1, s =>
    let c := if s.cursor.index = 0 && s.cursor.seesChar '\uFEFF' then s.cursor.skip else s.cursor
    let tabs := s.inFlow || !s.keyAllowed
    let c := c.skipWhile fun a => a = ' ' || (tabs && a = '\t')
    let c := if c.seesChar '#' then c.skipWhile (!isBreak ·) else c
    if c.sees isBreak then
      let s := { s with cursor := c.skipLine.2 }
      skipToToken n (if s.inFlow then s else s.allowKey true)
    else { s with cursor := c }

def isNameChar (c : Char) : Bool := c.isAlphanum || c = '_' || c = '-'

def name? (c : Cursor) : Option (String × Cursor) :=
  let body := c.rest.takeWhile isNameChar
  let after := c.skipMany body.length
  let closes := after.opens ||
    after.sees fun a => ['?', ':', ',', ']', '}', '%', '@', '\x60'].contains a
  if body.isEmpty || !closes then none else some (String.ofList body, after)

def isTagChar (wide : Bool) (c : Char) : Bool :=
  isNameChar c || [';', '/', '?', ':', '@', '&', '=', '+', '$', '.', '!', '~', '*', '\'', '(', ')'].contains c ||
    (wide && [',', '[', ']'].contains c)

/-- A byte written as a percent sign and two digits. -/
def percentByte? : List Char → Option (Nat × List Char)
  | '%' :: a :: b :: r => do
    let a ← Number.hexValue? a
    let b ← Number.hexValue? b
    some (a * 16 + b, r)
  | _ => none

def percentBytes : Nat → List Char → Option (List UInt8 × List Char)
  | 0, s => some ([], s)
  | n + 1, s => do
    let (b, r) ← percentByte? s
    let (bs, r) ← percentBytes n r
    some (b.toUInt8 :: bs, r)

/-- One character, written as the bytes of its encoding. -/
def percentChar? (s : List Char) : Option (List Char × List Char) := do
  let (b, _) ← percentByte? s
  let n := if b < 0x80 then 1 else if b < 0xC0 then 0 else if b < 0xE0 then 2 else if b < 0xF0 then 3
    else if b < 0xF8 then 4 else 0
  if n = 0 then none
  else
    let (bytes, r) ← percentBytes n s
    let text ← String.fromUTF8? ⟨bytes.toArray⟩
    some (text.toList, r)

def tagText (wide : Bool) : Nat → List Char → Cursor → Option (List Char × Cursor)
  | 0, before, c => some (before.reverse, c)
  | n + 1, before, c =>
    match c.rest with
    | [] => some (before.reverse, c)
    | a :: _ =>
      if a = '%' then
        match percentChar? c.rest with
        | none => none
        | some (text, r) =>
          tagText wide n (text.reverse ++ before) (c.skipMany (c.rest.length - r.length))
      else if isTagChar wide a then tagText wide n (a :: before) c.skip
      else some (before.reverse, c)

def tagUri? (wide : Bool) (head : List Char) (c : Cursor) : Option (List Char × Cursor) := do
  let (text, c) ← tagText wide (c.rest.length + 1) [] c
  if head.isEmpty && text.isEmpty then none else some (head.drop 1 ++ text, c)

def tagHandle? (c : Cursor) : Option (List Char × Cursor) :=
  if !c.seesChar '!' then none
  else
    let body := c.skip.rest.takeWhile isNameChar
    let after := c.skip.skipMany body.length
    if after.seesChar '!' then some ('!' :: body ++ ['!'], after.skip) else some ('!' :: body, after)

def isHandle (handle : List Char) : Bool := 1 < handle.length && handle.getLast? = some '!'

def tag? (inFlow : Bool) (c : Cursor) : Option (Token × Cursor) := do
  let (handle, rest, c) ←
    if c.seesAt 1 (· = '<') then do
      let (rest, c) ← tagUri? true [] c.skip.skip
      if c.seesChar '>' then some (([] : List Char), rest, c.skip) else none
    else do
      let (handle, c) ← tagHandle? c
      if isHandle handle then do
        let (rest, c) ← tagUri? false [] c
        some (handle, rest, c)
      else do
        let (rest, c) ← tagUri? false handle c
        if rest.isEmpty then some ([], ['!'], c) else some (['!'], rest, c)
  if c.opens || (inFlow && c.seesChar ',') then
    some (.tag (String.ofList handle) (String.ofList rest), c)
  else none

/-- One or more digits, at most nine. -/
def versionNumber? (c : Cursor) : Option (Nat × Cursor) :=
  let digits := c.rest.takeWhile Number.isDigit
  if digits.isEmpty || 9 < digits.length then none
  else some (digits.foldl (fun n d => n * 10 + Number.digitValue d) 0, c.skipMany digits.length)

def version? (c : Cursor) : Option (Token × Cursor) := do
  let (major, c) ← versionNumber? (c.skipWhile isGap)
  if !c.seesChar '.' then none
  else
    let (minor, c) ← versionNumber? c.skip
    some (.version (major = 1 && (minor = 1 || minor = 2)), c)

def tagDirective? (c : Cursor) : Option (Token × Cursor) := do
  let (handle, c) ← tagHandle? (c.skipWhile isGap)
  if !(handle = ['!'] || isHandle handle) || !c.sees isGap then none
  else
    let (leading, c) ← tagUri? true [] (c.skipWhile isGap)
    if c.opens then some (.tagHandle (String.ofList handle) (String.ofList leading), c) else none

def directive? (c : Cursor) : Option (Token × Cursor) := do
  let c := c.skip
  let name := c.rest.takeWhile isNameChar
  let after := c.skipMany name.length
  if name.isEmpty || !after.opens then none
  else
    let (t, c) ←
      if name = ['Y', 'A', 'M', 'L'] then version? after
      else if name = ['T', 'A', 'G'] then tagDirective? after
      else none
    let c := c.skipWhile isGap
    let c := if c.seesChar '#' then c.skipWhile (!isBreak ·) else c
    if c.endsLine then some (t, c.skipLine.2) else none

/-- A token that can be no key and ends all blocks. -/
def outermost? (s : Scan) : Option Scan := do
  let s ← (s.unrollTo (-1)).forgetKey?
  some (s.allowKey false)

def openFlow? (s : Scan) (t : Token) : Option Scan := do
  let s ← s.noteKey?
  let s := { s with outerKeys := s.key :: s.outerKeys, key := none }
  some ((s.allowKey true).skip.push t)

def closeFlow? (s : Scan) (t : Token) : Option Scan := do
  let s ← s.forgetKey?
  let s := match s.outerKeys with
    | k :: r => { s with key := k, outerKeys := r }
    | [] => s
  some ((s.allowKey false).skip.push t)

def blockEntry? (s : Scan) : Option Scan :=
  if !s.inFlow && !s.keyAllowed then none
  else do
    let s ← (s.roll s.cursor.column none .blockSequence).forgetKey?
    some ((s.allowKey true).skip.push .blockEntry)

def explicitKey? (s : Scan) : Option Scan :=
  if !s.inFlow && !s.keyAllowed then none
  else do
    let s ← (s.roll s.cursor.column none .blockMapping).forgetKey?
    some ((s.allowKey !s.inFlow).skip.push .key)

def value? (s : Scan) : Option Scan :=
  match s.key with
  | some k =>
    let s := (s.insert k.number .key).roll k.column (some k.number) .blockMapping
    some (({ s with key := none }.allowKey false).skip.push .value)
  | none =>
    if !s.inFlow && !s.keyAllowed then none
    else some (((s.roll s.cursor.column none .blockMapping).allowKey !s.inFlow).skip.push .value)

/-- A token that may be a key, read by the given reader. -/
def keyToken? (s : Scan) (read : Cursor → Option (Token × Cursor)) : Option Scan := do
  let s ← s.noteKey?
  let (t, c) ← read s.cursor
  some (({ s with cursor := c }.allowKey false).push t)

def plain? (s : Scan) : Option Scan := do
  let s ← s.noteKey?
  let (f, c) ← plainScalar s.inFlow (s.indent + 1).toNat (s.cursor.rest.length + 1) .empty s.cursor
  some (({ s with cursor := c }.allowKey f.broken).push (.scalar (String.ofList f.text.reverse) .plain))

def quoted? (s : Scan) (quote : Char) : Option Scan :=
  s.keyToken? fun c => do
    let (text, c) ← quotedScalar quote (c.rest.length + 1) .empty c.skip
    some (.scalar (String.ofList text) .quoted, c)

def block? (s : Scan) (literal : Bool) : Option Scan := do
  let s ← s.forgetKey?
  let (text, c) ← blockScalar literal s.indent s.cursor.skip
  some (({ s with cursor := c }.allowKey true).push
    (.scalar (String.ofList text) (if literal then .literal else .folded)))

/-- Characters that no plain scalar begins with, at least not without more ado. -/
def indicators : List Char :=
  ['-', '?', ':', ',', '[', ']', '{', '}', '#', '&', '*', '!', '|', '>', '\'', '"', '%', '@', '\x60']

def startsPlain (s : Scan) (a : Char) : Bool :=
  (!indicators.contains a && !isGap a) ||
    (a = '-' && !s.cursor.seesAt 1 isGap) ||
    (!s.inFlow && (a = '?' || a = ':') && !s.cursor.opensAt 1)

/-- Reads the token that starts right here; `none` if there is none that may stand here. -/
def token? (s : Scan) : Option Scan :=
  let c := s.cursor
  match c.rest with
  | [] => do
    let s ← s.outermost?
    some (s.push .streamEnd)
  | a :: _ =>
    if c.column = 0 && a = '%' then do
      let s ← s.outermost?
      let (t, c) ← directive? s.cursor
      some ({ s with cursor := c }.push t)
    else if c.atDocumentMark then do
      let s ← s.outermost?
      some ({ s with cursor := c.skipMany 3 }.push (if a = '-' then .documentStart else .documentEnd))
    else if a = '[' then s.openFlow? .flowSequence
    else if a = '{' then s.openFlow? .flowMapping
    else if a = ']' then s.closeFlow? .flowSequenceEnd
    else if a = '}' then s.closeFlow? .flowMappingEnd
    else if a = ',' then do
      let s ← s.forgetKey?
      some ((s.allowKey true).skip.push .flowEntry)
    else if a = '-' && c.opensAt 1 then s.blockEntry?
    else if a = '?' && (s.inFlow || c.opensAt 1) then s.explicitKey?
    else if a = ':' && (s.inFlow || c.opensAt 1) then s.value?
    else if a = '*' then s.keyToken? fun c => (name? c.skip).map fun (n, c) => (.alias n, c)
    else if a = '&' then s.keyToken? fun c => (name? c.skip).map fun (n, c) => (.anchor n, c)
    else if a = '!' then s.keyToken? (tag? s.inFlow)
    else if a = '|' && !s.inFlow then s.block? true
    else if a = '>' && !s.inFlow then s.block? false
    else if a = '\'' || a = '"' then s.quoted? a
    else if s.startsPlain a then s.plain?
    else none

/-- Reads the next token, which ends the blocks that are further in than it. -/
def next? (s : Scan) : Option Scan := do
  let s ← (skipToToken (s.cursor.rest.length + 1) s).dropStale?
  (s.unrollTo s.cursor.column).token?

/-- Tokens that are settled: those before the first that may still turn out to be a key. -/
def settled (s : Scan) : List Token :=
  let marks := (s.key :: s.outerKeys).filterMap id
  let n := marks.foldl (fun n k => min n k.number) s.tokens.length
  s.tokens.reverse.take n

/-- All tokens, or those that were settled before a mistake. -/
def run : Nat → Scan → List Token
  | 0, s => s.settled
  | n + 1, s =>
    match s.dropStale? with
    | none => s.settled
    | some s =>
      match s.next? with
      | none => s.settled
      | some t => if t.tokens.head? = some .streamEnd then t.tokens.reverse else run n t

end Scan

def Token.ofText (text : String) : List Token :=
  let s := text.toList
  if s.all isAllowed then Scan.run (s.length + 2) (.start s) else []

end SiteTree.Yaml
