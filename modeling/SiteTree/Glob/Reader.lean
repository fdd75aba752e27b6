import SiteTree.Glob.Basic
import SiteTree.Glob.Fault

/-!
Reading globs.
-/

namespace SiteTree.Glob

/-- A group of alternatives that is still open: the tokens before it and its finished branches,
both with the last one first. -/
structure Group where
  before : List Token
  branches : List (List Token)

/-- The tokens of the open branch, last one first, and the groups around it, inner one first. -/
structure Draft where
  current : List Token
  groups : List Group

def Draft.push (d : Draft) (t : Token) : Draft := { d with current := t :: d.current }

def Draft.inGroup (d : Draft) : Bool := !d.groups.isEmpty

def Draft.openGroup (d : Draft) : Draft := ⟨[], ⟨d.current, []⟩ :: d.groups⟩

/-- A comma outside all groups is a character like any other. -/
def Draft.comma (d : Draft) : Draft :=
  match d.groups with
  | [] => d.push (.literal ',')
  | g :: r => ⟨[], { g with branches := d.current.reverse :: g.branches } :: r⟩

def Draft.closeGroup (d : Draft) : Except Fault Draft :=
  match d.groups with
  | [] => .error .unopenedGroup
  | g :: r => .ok ⟨.alternatives (d.current.reverse :: g.branches).reverse :: g.before, r⟩

/-- What a run of two stars in the middle of a branch turns the token before it into. -/
def Draft.swallow (d : Draft) (last : Bool) : Draft :=
  let t : Token := if last then .insideDirectory else .innerDirectories
  match d.current with
  | [] => d.push t
  | .leadingDirectories :: _ => d
  | .insideDirectory :: _ => d
  | _ :: r => { d with current := t :: r }

/-- Two stars are more than two single ones only where they make up a whole component. The
character before them is `prev`; the text after them comes back without a slash that was used. -/
def Draft.doubleStar (d : Draft) (prev : Option Char) (s : List Char) : Draft × List Char :=
  let plain := (d.push .anyRun).push .anyRun
  if d.current.isEmpty then
    match s with
    | [] => (d.push .leadingDirectories, [])
    | c :: r => if c = '/' then (d.push .leadingDirectories, r) else (plain, s)
  else if prev = some '/' || (d.inGroup && (prev = some ',' || prev = some '{')) then
    match s with
    | [] => (d.swallow true, [])
    | c :: r =>
      if c = '/' then (d.swallow false, r)
      else if d.inGroup && (c = ',' || c = '}') then (d.swallow true, s)
      else (plain, s)
  else (plain, s)

/-- Members read so far, last one first, and whether a hyphen waits for its upper end. -/
structure ClassDraft where
  ranges : List Range
  pending : Bool

def ClassDraft.add (d : ClassDraft) (c : Char) : Except Fault ClassDraft :=
  match d.ranges, d.pending with
  | r :: rest, true =>
    if c < r.low then .error (.descendingRange r.low c) else .ok ⟨⟨r.low, c⟩ :: rest, false⟩
  | ranges, _ => .ok ⟨⟨c, c⟩ :: ranges, false⟩

/-- A hyphen at either end of a class stands for itself. -/
def ClassDraft.finish (d : ClassDraft) : List Range :=
  (if d.pending then ⟨'-', '-'⟩ :: d.ranges else d.ranges).reverse

/-- Reads members up to the closing bracket. The first member may be any character. -/
def readMembers : Bool → ClassDraft → List Char → Except Fault (List Range × List Char)
  | _, _, [] => .error .openClass
  | first, d, c :: r =>
    if c = ']' && !first then .ok (d.finish, r)
    else if c = '-' && !first && !d.pending then readMembers false { d with pending := true } r
    else match d.add c with
      | .ok d => readMembers false d r
      | .error e => .error e

def readClass (s : List Char) : Except Fault (Token × List Char) := do
  let negated := s.head? = some '!' || s.head? = some '^'
  let (ranges, r) ← readMembers true ⟨[], false⟩ (if negated then s.drop 1 else s)
  .ok (.oneOf negated ranges, r)

def readTokens : Nat → Draft → Option Char → List Char → Except Fault Draft
  | 0, d, _, _ => .ok d
  | _, d, _, [] => .ok d
  | fuel + 1, d, prev, c :: r => do
    if c = '?' then readTokens fuel (d.push .any) (some c) r
    else if c = '*' then
      match r with
      | '*' :: r =>
        let (d, rest) := d.doubleStar prev r
        readTokens fuel d (if rest.length < r.length then some '/' else some '*') rest
      | r => readTokens fuel (d.push .anyRun) (some c) r
    else if c = '[' then
      let (t, r) ← readClass r
      readTokens fuel (d.push t) (some ']') r
    else if c = '{' then readTokens fuel d.openGroup (some c) r
    else if c = '}' then
      let d ← d.closeGroup
      readTokens fuel d (some c) r
    else if c = ',' then readTokens fuel d.comma (some c) r
    else if c = '\\' then
      match r with
      | [] => .error .lastEscape
      | e :: r => readTokens fuel (d.push (.literal e)) (some e) r
    else readTokens fuel (d.push (.literal c)) (some c) r

def read (pattern : String) : Except Fault Glob := do
  let s := pattern.toList
  let d ← readTokens s.length ⟨[], []⟩ none s
  if d.inGroup then .error .openGroup else .ok ⟨d.current.reverse⟩

end SiteTree.Glob
