import SiteTree.Json.Reader
import SiteTree.Yaml.Cursor

/-!
The texts of scalars. A scalar may go on over several lines; single line breaks in it are folded
into spaces, except in literal blocks.
-/

namespace SiteTree.Yaml

inductive Style where
  | plain
  | quoted
  | literal
  | folded
  deriving DecidableEq, Repr

/-- The text so far, last character first, the gap after it, the first line break after it, and
all further ones. -/
structure Folding where
  text : List Char
  gap : List Char
  first : List Char
  more : List Char
  broken : Bool

namespace Folding

def empty : Folding := ⟨[], [], [], [], false⟩

def push (f : Folding) (c : Char) : Folding := { f with text := c :: f.text }

def close (f : Folding) : Folding :=
  let added :=
    if f.broken then
      if f.first.head? = some '\n' then (if f.more.isEmpty then [' '] else f.more)
      else f.first ++ f.more
    else f.gap
  ⟨added.reverse ++ f.text, [], [], [], false⟩

/-- Takes up gaps and line breaks. With a `limit`, a tab that stands left of it after a line break
is refused. -/
def skipGaps (limit : Option Nat) : Nat → Folding → Cursor → Option (Folding × Cursor)
  | 0, f, c => some (f, c)
  | n + 1, f, c =>
    match c.rest with
    | [] => some (f, c)
    | a :: _ =>
      if isGap a then
        if !f.broken then skipGaps limit n { f with gap := f.gap ++ [a] } c.skip
        else if a = '\t' && limit.any (c.column < ·) then none
        else skipGaps limit n f c.skip
      else if isBreak a then
        let (b, c) := c.skipLine
        if f.broken then skipGaps limit n { f with more := f.more ++ b } c
        else skipGaps limit n { f with gap := [], first := b, broken := true } c
      else some (f, c)

end Folding

def inFlowEnd (c : Char) : Bool := c = ',' || c = '[' || c = ']' || c = '{' || c = '}'

/-- Characters of a plain scalar up to a gap or its end; the answer is whether it has ended. -/
def plainRun (inFlow : Bool) : Nat → Folding → Cursor → Option (Folding × Cursor × Bool)
  | 0, f, c => some (f, c, true)
  | n + 1, f, c =>
    match c.rest with
    | [] => some (f, c, true)
    | a :: _ =>
      if isGap a || isBreak a then some (f, c, false)
      else if inFlow && a = ':' && c.seesAt 1 (fun b => inFlowEnd b || b = '?') then none
      else if (a = ':' && c.opensAt 1) || (inFlow && inFlowEnd a) then some (f, c, true)
      else plainRun inFlow n (f.close.push a) c.skip

/-- A plain scalar; the answer is its text, and whether it ended after a line break. -/
def plainScalar (inFlow : Bool) (indent : Nat) : Nat → Folding → Cursor →
    Option (Folding × Cursor)
  | 0, f, c => some (f, c)
  | n + 1, f, c =>
    if c.atDocumentMark || c.seesChar '#' then some (f, c)
    else do
      let (f, c, ended) ← plainRun inFlow (c.rest.length + 1) f c
      if ended then some (f, c)
      else
        let (f, c) ← f.skipGaps (some indent) (c.rest.length + 1) c
        if !inFlow && c.column < indent then some (f, c)
        else plainScalar inFlow indent n f c

def escapes : List (Char × Nat) :=
  [('0', 0), ('a', 7), ('b', 8), ('t', 9), ('\t', 9), ('n', 10), ('v', 11), ('f', 12), ('r', 13),
   ('e', 27), (' ', 32), ('"', 34), ('/', 47), ('\\', 92), ('N', 0x85), ('_', 0xA0), ('L', 0x2028),
   ('P', 0x2029)]

def escapeLength : Char → Option Nat
  | 'x' => some 2
  | 'u' => some 4
  | 'U' => some 8
  | _ => none

def hexNumber? : List Char → Option Nat
  | s => s.foldlM (fun n c => (Number.hexValue? c).map fun d => n * 16 + d) 0

def escape? (c : Cursor) : Option (Char × Cursor) :=
  match c.rest with
  | [] => none
  | a :: r =>
    match escapes.lookup a with
    | some n => some (Char.ofNat n, c.skip)
    | none => do
      let n ← escapeLength a
      let digits := r.take n
      let v ← hexNumber? digits
      if digits.length < n || (0xD800 ≤ v && v ≤ 0xDFFF) || 0x10FFFF < v then none
      else some (Char.ofNat v, c.skipMany (n + 1))

/-- Characters of a quoted scalar up to a gap, an escaped line break or the closing quote. -/
def quotedRun (quote : Char) : Nat → Folding → Cursor → Option (Folding × Cursor)
  | 0, f, c => some (f, c)
  | n + 1, f, c =>
    match c.rest with
    | [] => some (f, c)
    | a :: r =>
      if isGap a || isBreak a then some (f, c)
      else if a = quote then
        if quote = '\'' && r.head? = some '\'' then quotedRun quote n (f.push a) c.skip.skip
        else some (f, c)
      else if quote = '"' && a = '\\' then
        if c.seesAt 1 isBreak then some ({ f with broken := true }, c.skip.skipLine.2)
        else do
          let (b, c) ← escape? c.skip
          quotedRun quote n (f.push b) c
      else quotedRun quote n (f.push a) c.skip

def quotedScalar (quote : Char) : Nat → Folding → Cursor → Option (List Char × Cursor)
  | 0, _, _ => none
  | n + 1, f, c =>
    if c.atDocumentMark || c.isEnd then none
    else do
      let (f, c) ← quotedRun quote (c.rest.length + 1) f c
      if c.seesChar quote then some (f.text.reverse, c.skip)
      else
        let (f, c) ← f.skipGaps none (c.rest.length + 1) c
        quotedScalar quote n f.close c

inductive Chomping where
  | strip
  | clip
  | keep
  deriving DecidableEq, Repr

/-- How a block scalar ends and how far it is indented, if its head says so. -/
structure BlockHead where
  chomping : Chomping
  increment : Nat

def chomping? (c : Cursor) : Option Chomping :=
  if c.seesChar '+' then some .keep else if c.seesChar '-' then some .strip else none

def increment? (c : Cursor) : Option (Nat × Cursor) :=
  match c.rest with
  | a :: _ =>
    if a = '0' then none
    else if Number.isDigit a then some (Number.digitValue a, c.skip)
    else some (0, c)
  | [] => some (0, c)

def blockHead? (c : Cursor) : Option (BlockHead × Cursor) :=
  match chomping? c with
  | some h => do
    let (n, c) ← increment? c.skip
    some (⟨h, n⟩, c)
  | none => do
    let (n, d) ← increment? c
    if n = 0 then some (⟨.clip, 0⟩, d)
    else match chomping? d with
      | some h => some (⟨h, n⟩, d.skip)
      | none => some (⟨.clip, n⟩, d)

/-- Steps over indentation and empty lines: the line breaks, and the widest indentation. Without a
known indentation all spaces count; a tab inside the indentation is refused. -/
def blockGaps (indent : Nat) : Nat → List Char → Nat → Cursor → Option (List Char × Nat × Cursor)
  | 0, breaks, widest, c => some (breaks, widest, c)
  | n + 1, breaks, widest, c =>
    let spaces := (c.rest.takeWhile (· = ' ')).length
    let c := c.skipMany (if indent = 0 then spaces else min spaces (indent - c.column))
    let widest := max widest c.column
    if (indent = 0 || c.column < indent) && c.seesChar '\t' then none
    else if c.sees isBreak then
      let (b, c) := c.skipLine
      blockGaps indent n (breaks ++ b) widest c
    else some (breaks, widest, c)

/-- The text so far, last character first, the last line break, and whether the last line started
with a gap. -/
structure BlockDraft where
  text : List Char
  first : List Char
  more : List Char
  gapped : Bool

def blockLines (literal : Bool) (indent : Nat) : Nat → BlockDraft → Cursor →
    Option (BlockDraft × Cursor)
  | 0, d, c => some (d, c)
  | n + 1, d, c =>
    if c.column = indent && !c.isEnd then
      let gapped := c.sees isGap
      let first :=
        if !literal && d.first.head? = some '\n' && !d.gapped && !gapped then
          (if d.more.isEmpty then [' '] else [])
        else d.first
      let line := c.rest.takeWhile (!isBreak ·)
      let text := line.reverse ++ d.more.reverse ++ first.reverse ++ d.text
      let (b, c) := (c.skipMany line.length).skipLine
      match blockGaps indent (c.rest.length + 1) [] 0 c with
      | none => none
      | some (more, _, c) => blockLines literal indent n ⟨text, b, more, gapped⟩ c
    else some (d, c)

/-- A block scalar inside the given indentation, right after its mark. -/
def blockScalar (literal : Bool) (outer : Int) (c : Cursor) : Option (List Char × Cursor) := do
  let (head, c) ← blockHead? c
  let c := c.skipWhile isGap
  let c := if c.seesChar '#' then c.skipWhile (!isBreak ·) else c
  if !c.endsLine then none
  else
    let c := c.skipLine.2
    let given := if head.increment = 0 then 0 else ((max outer 0) + head.increment).toNat
    let (more, widest, c) ← blockGaps given (c.rest.length + 1) [] 0 c
    let indent := if given = 0 then max (max widest (outer + 1).toNat) 1 else given
    let (d, c) ← blockLines literal indent (c.rest.length + 1) ⟨[], [], more, false⟩ c
    let tail := match head.chomping with
      | .strip => []
      | .clip => d.first
      | .keep => d.first ++ d.more
    some (d.text.reverse ++ tail, c)

end SiteTree.Yaml
