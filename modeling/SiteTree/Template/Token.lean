import SiteTree.Json.Reader
import SiteTree.Template.Fault
import SiteTree.Text.Blank

/-!
The tokens of a template: the text between the tags, the ends of the tags, and the words, marks,
strings and numbers inside of them. A minus sign at an end of a tag takes the blanks away beside it.
-/

namespace SiteTree.Template

open Text Number

inductive Token where
  | text (s : String)
  | openOutput
  | closeOutput
  | openTag
  | closeTag
  | word (s : String)
  | string (s : String)
  | whole (n : Nat)
  | real (f : Float)
  | mark (s : String)
  deriving Repr

structure Lexeme where
  token : Token
  line : Nat
  deriving Repr

/-- The tokens up to the end of the template, or up to the first mistake. -/
structure Lexemes where
  items : List Lexeme
  fault : Option PageFault
  deriving Repr

namespace Lexemes

def empty : Lexemes := ⟨[], none⟩

def mistake (line : Nat) (detail : String) : Lexemes :=
  ⟨[], some ⟨.badSyntax, none, some line, detail⟩⟩

def after (token : Token) (line : Nat) (r : Lexemes) : Lexemes := ⟨⟨token, line⟩ :: r.items, r.fault⟩

def afterText (s : List Char) (line : Nat) (r : Lexemes) : Lexemes :=
  if s.isEmpty then r else r.after (.text (String.ofList s)) line

end Lexemes

def lineBreaks (s : List Char) : Nat := s.count '\n'

inductive Opening where
  | output
  | comment
  | statement

/-- Reads what follows the first two characters of a tag. -/
def opening : List Char → Opening × List Char
  | '=' :: r => (.output, r)
  | '#' :: r => (.comment, r)
  | r => (.statement, r)

/-- A sign beside the end of a tag, and whether it takes blanks away. -/
def sign : List Char → Bool × List Char
  | '-' :: r => (true, r)
  | '+' :: r => (false, r)
  | r => (false, r)

def isSpace (c : Char) : Bool :=
  c = ' ' || c = '\t' || c = '\n' || c = '\r' || c = '\x0c'

def skipSpace (s : List Char) : List Char := s.dropWhile isSpace

def tagStart : List Char := ['<', '%']

def tagEnd : List Char := ['%', '>']

/-- What follows a tag that holds nothing but one word, and the sign at its end. -/
def lonely? (word : String) (s : List Char) : Option (Bool × List Char) := do
  let r ← dropStart? word.toList (skipSpace s)
  let (trims, r) := sign (skipSpace r)
  let r ← dropStart? tagEnd r
  some (trims, r)

structure Raw where
  text : List Char
  trimsBefore : Bool
  trimsAfter : Bool
  rest : List Char

def cutRaw? : List Char → Option Raw
  | [] => none
  | c :: r =>
    let found : Option Raw := do
      let inner ← dropStart? tagStart (c :: r)
      let (trimsBefore, inner) := sign inner
      let (trimsAfter, rest) ← lonely? "endraw" inner
      some ⟨[], trimsBefore, trimsAfter, rest⟩
    match found with
    | some raw => some raw
    | none => (cutRaw? r).map fun raw => { raw with text := c :: raw.text }

def isWordStart (c : Char) : Bool := c.isAlpha || c = '_'

def isWordPart (c : Char) : Bool := c.isAlphanum || c = '_'

/-- The characters of a string up to its closing quote, and what follows. -/
def stringBody? (quote : Char) : List Char → Option (List Char × List Char)
  | [] => none
  | '\\' :: c :: r => (stringBody? quote r).map fun (s, t) => ('\\' :: c :: s, t)
  | c :: r => if c = quote then some ([], r) else (stringBody? quote r).map fun (s, t) => (c :: s, t)

def unescape? : Nat → List Char → Option (List Char)
  | _, [] => some []
  | 0, _ => none
  | fuel + 1, '\\' :: '\'' :: r => (unescape? fuel r).map ('\'' :: ·)
  | fuel + 1, '\\' :: r => do
    let (c, r) ← Json.readEscape? r
    let t ← unescape? fuel r
    some (c :: t)
  | fuel + 1, c :: r => (unescape? fuel r).map (c :: ·)

/-- The part of a number that is being read. -/
inductive NumberPart where
  | whole
  | fraction
  | exponent
  | exponentDigits
  deriving DecidableEq

def NumberPart.next? (part : NumberPart) (c : Char) : Option NumberPart :=
  if isDigit c then some (if part = .exponent then .exponentDigits else part)
  else if c = '_' then some part
  else if c = '.' then (if part = .whole then some .fraction else none)
  else if c = 'e' || c = 'E' then
    (if part = .whole || part = .fraction then some .exponent else none)
  else if c = '+' || c = '-' then (if part = .exponent then some .exponentDigits else none)
  else none

def cutNumber (part : NumberPart) : List Char → List Char × NumberPart × List Char
  | [] => ([], part, [])
  | c :: r => match part.next? c with
    | none => ([], part, c :: r)
    | some next =>
      let (s, last, rest) := cutNumber next r
      (c :: s, last, rest)

/-- Numbers may be cut into groups by low lines, which count for nothing. -/
def ungroup? (s : List Char) : Option (List Char) :=
  if s.getLast? = some '_' then none else some (s.filter (· ≠ '_'))

def wholeToken? (base : Nat) (s : List Char) : Option Token := do
  let n ← digits? base s
  if n < twoTo 128 then some (.whole n) else none

/-- A number with a mark for its base. -/
def based? (base : Nat) (s : List Char) : Option Token × List Char :=
  let inNumber (c : Char) : Bool :=
    isDigit c || c = '_' || (base = 16 && (hexValue? c).isSome)
  ((ungroup? (s.takeWhile inNumber)).bind (wholeToken? base), s.dropWhile inNumber)

/-- A number at the start of the text, if it is well written, and what follows it. Right behind a
point only digits are taken. -/
def number (behindPoint : Bool) (s : List Char) : Option Token × List Char :=
  if behindPoint then (wholeToken? 10 (s.takeWhile isDigit), s.dropWhile isDigit)
  else match s with
    | '0' :: 'b' :: r | '0' :: 'B' :: r => based? 2 r
    | '0' :: 'o' :: r | '0' :: 'O' :: r => based? 8 r
    | '0' :: 'x' :: r | '0' :: 'X' :: r => based? 16 r
    | s =>
      let (digits, part, rest) := cutNumber .whole s
      let token := (ungroup? digits).bind fun digits =>
        if part = .whole then wholeToken? 10 digits else (unsigned? digits).map .real
      (token, rest)

def twoMarks : List String := ["//", "**", "==", "!=", ">=", "<="]

def isMark (c : Char) : Bool := "+-*/%~.,:=|()[]\x7b\x7d<>".toList.contains c

def isOpening (c : Char) : Bool := c = '(' || c = '[' || c = '{'

def isClosing (c : Char) : Bool := c = ')' || c = ']' || c = '}'

def mark? : List Char → Option (String × Int × List Char)
  | [] => none
  | [c] => if isMark c then some (c.toString, 0, []) else none
  | c :: d :: r =>
    let two := String.ofList [c, d]
    if twoMarks.contains two then some (two, 0, r)
    else if isMark c then
      some (c.toString, if isOpening c then 1 else if isClosing c then -1 else 0, d :: r)
    else none

def closing? (s : List Char) : Option (Bool × List Char) :=
  let (trims, r) := sign s
  (dropStart? tagEnd r).map (trims, ·)

inductive Within where
  | text (trims : Bool)
  /-- The brackets that are open, and whether a point came last. -/
  | tag (output : Bool) (depth : Int) (behindPoint : Bool)

/-- The next token inside of a tag, unless the tag ends here. -/
inductive Step where
  | token (token : Token) (depth : Int) (rest : List Char)
  | mistake (fault : PageFault)

def misread (line : Nat) (detail : String) : Step :=
  .mistake ⟨.badSyntax, none, some line, detail⟩

def stringStep (quote : Char) (line : Nat) (s : List Char) : Step :=
  match stringBody? quote s with
  | none => misread line "unexpected end of string"
  | some (body, rest) => match unescape? body.length body with
    | none => .mistake (.of .badEscape "bad string escape")
    | some t => .token (.string (String.ofList t)) 0 rest

def step (behindPoint : Bool) (line : Nat) (s : List Char) : Step :=
  match mark? s with
  | some (m, depth, rest) => .token (.mark m) depth rest
  | none => match s with
    | [] => misread line "unexpected end of input"
    | c :: r =>
      if c = '\'' || c = '"' then stringStep c line r
      else if isDigit c then
        match number behindPoint s with
        | (some token, rest) => .token token 0 rest
        | (none, _) => misread line "invalid number"
      else if isWordStart c then
        .token (.word (String.ofList (s.takeWhile isWordPart))) 0 (s.dropWhile isWordPart)
      else misread line "unexpected character"

def isPoint : Token → Bool
  | .mark "." => true
  | _ => false

/-- Scans at most so many tags and tokens. -/
def scan : Nat → Within → Nat → List Char → Lexemes
  | 0, _, _, _ => .empty
  | fuel + 1, .text trims, line, s =>
    let t := if trims then trimStart s else s
    let line := line + lineBreaks (s.take (s.length - t.length))
    match cutAt? tagStart t with
    | none => Lexemes.empty.afterText t line
    | some (before, r) =>
      let (kind, r) := opening r
      let (trimsBefore, r) := sign r
      let next := line + lineBreaks before
      let rest : Lexemes := match kind with
        | .output => (scan fuel (.tag true 0 false) next r).after .openOutput next
        | .comment => match cutAt? tagEnd r with
          | none => .mistake next "unexpected end of comment"
          | some (body, r) =>
            scan fuel (.text (body.getLast? = some '-')) (next + lineBreaks body) r
        | .statement => match lonely? "raw" r with
          | none => (scan fuel (.tag false 0 false) next r).after .openTag next
          | some (trimsText, inner) =>
            let next := next + lineBreaks (r.take (r.length - inner.length))
            match cutRaw? inner with
            | none => .mistake next "unexpected end of raw block"
            | some raw =>
              let text := if trimsText then trimStart raw.text else raw.text
              let text := if raw.trimsBefore then trimEnd text else text
              let after := next + lineBreaks (inner.take (inner.length - raw.rest.length))
              (scan fuel (.text raw.trimsAfter) after raw.rest).afterText text next
      rest.afterText (if trimsBefore then trimEnd before else before) line
  | fuel + 1, .tag output depth behindPoint, line, s =>
    let t := skipSpace s
    let line := line + lineBreaks (s.take (s.length - t.length))
    match t, if depth = 0 then closing? t else none with
    | [], _ => .empty
    | _, some (trims, r) =>
      (scan fuel (.text trims) line r).after (if output then .closeOutput else .closeTag) line
    | _, none => match step behindPoint line t with
      | .mistake fault => ⟨[], some fault⟩
      | .token token change r =>
        let next := line + lineBreaks (t.take (t.length - r.length))
        (scan fuel (.tag output (depth + change) (isPoint token)) next r).after token line

/-- One line break at the end of a template counts for nothing. -/
def dropFinalBreak (s : List Char) : List Char :=
  let s := if s.getLast? = some '\n' then s.dropLast else s
  if s.getLast? = some '\r' then s.dropLast else s

def Lexemes.ofText (s : String) : Lexemes :=
  let s := dropFinalBreak s.toList
  scan (2 * s.length + 2) (.text false) 1 s

end SiteTree.Template
