/-!
A place in a text, and the steps from there.
-/

namespace SiteTree.Yaml

/-- The text from here on, and how far in the text, in its lines and in this line that is. -/
structure Cursor where
  rest : List Char
  index : Nat
  line : Nat
  column : Nat

def isBreak (c : Char) : Bool :=
  c = '\n' || c = '\r' || c.toNat = 0x85 || c.toNat = 0x2028 || c.toNat = 0x2029

def isGap (c : Char) : Bool := c = ' ' || c = '\t'

def isAllowed (c : Char) : Bool :=
  let n := c.toNat
  n = 9 || n = 10 || n = 13 || (0x20 ≤ n && n ≤ 0x7E) || n = 0x85 || (0xA0 ≤ n && n ≤ 0xFFFD) ||
    0x10000 ≤ n

namespace Cursor

def start (s : List Char) : Cursor := ⟨s, 0, 0, 0⟩

def isEnd (c : Cursor) : Bool := c.rest.isEmpty

def sees (c : Cursor) (p : Char → Bool) : Bool :=
  match c.rest with
  | [] => false
  | a :: _ => p a

def seesChar (c : Cursor) (a : Char) : Bool := c.sees (· = a)

def seesAt (c : Cursor) (n : Nat) (p : Char → Bool) : Bool :=
  match c.rest.drop n with
  | [] => false
  | a :: _ => p a

/-- A gap, a line break or the end stands so many characters from here. -/
def opensAt (c : Cursor) (n : Nat) : Bool :=
  match c.rest.drop n with
  | [] => true
  | a :: _ => isGap a || isBreak a

def opens (c : Cursor) : Bool := c.opensAt 0

def endsLine (c : Cursor) : Bool :=
  match c.rest with
  | [] => true
  | a :: _ => isBreak a

def skip (c : Cursor) : Cursor :=
  match c.rest with
  | [] => c
  | _ :: r => ⟨r, c.index + 1, c.line, c.column + 1⟩

def skipMany (c : Cursor) : Nat → Cursor
  | 0 => c
  | n + 1 => c.skip.skipMany n

/-- Steps over a line break, and tells how it counts as text. -/
def skipLine (c : Cursor) : List Char × Cursor :=
  match c.rest with
  | '\r' :: '\n' :: r => (['\n'], ⟨r, c.index + 2, c.line + 1, 0⟩)
  | a :: r =>
    if isBreak a then
      (if a.toNat = 0x2028 || a.toNat = 0x2029 then [a] else ['\n'], ⟨r, c.index + 1, c.line + 1, 0⟩)
    else ([], c)
  | [] => ([], c)

def skipWhile (c : Cursor) (p : Char → Bool) : Cursor :=
  let n := (c.rest.takeWhile p).length
  ⟨c.rest.drop n, c.index + n, c.line, c.column + n⟩

/-- The start of a line that begins or ends a document. -/
def atDocumentMark (c : Cursor) : Bool :=
  c.column = 0 && (['-', '-', '-'].isPrefixOf c.rest || ['.', '.', '.'].isPrefixOf c.rest) &&
    c.opensAt 3

end Cursor

end SiteTree.Yaml
