import SiteTree.Json.Number
import SiteTree.Text.Split

/-!
Reading the text of a value. Nesting is limited, fields keep their order and equal keys stay,
so that a caller can still see them.
-/

namespace SiteTree.Json

open Number

def isSpace (c : Char) : Bool := c = ' ' || c = '\n' || c = '\t' || c = '\r'

def skipSpace (s : List Char) : List Char := s.dropWhile isSpace

def readHex? : List Char → Option (Nat × List Char)
  | a :: b :: c :: d :: r => do
    let a ← hexValue? a
    let b ← hexValue? b
    let c ← hexValue? c
    let d ← hexValue? d
    some (((a * 16 + b) * 16 + c) * 16 + d, r)
  | _ => none

/-- The character of a numbered escape. A leading half needs its trailing half right behind it. -/
def readUnit? (s : List Char) : Option (Char × List Char) := do
  let (n, r) ← readHex? s
  if 0xDC00 ≤ n && n ≤ 0xDFFF then none
  else if 0xD800 ≤ n && n ≤ 0xDBFF then
    match r with
    | '\\' :: 'u' :: r =>
      let (m, r) ← readHex? r
      if 0xDC00 ≤ m && m ≤ 0xDFFF then
        some (Char.ofNat (0x10000 + (n - 0xD800) * 0x400 + (m - 0xDC00)), r)
      else none
    | _ => none
  else some (Char.ofNat n, r)

def readEscape? : List Char → Option (Char × List Char)
  | '"' :: r => some ('"', r)
  | '\\' :: r => some ('\\', r)
  | '/' :: r => some ('/', r)
  | 'b' :: r => some ('\x08', r)
  | 'f' :: r => some ('\x0c', r)
  | 'n' :: r => some ('\n', r)
  | 'r' :: r => some ('\r', r)
  | 't' :: r => some ('\t', r)
  | 'u' :: r => readUnit? r
  | _ => none

def readQuoted? : Nat → List Char → List Char → Option (String × List Char)
  | 0, _, _ => none
  | _ + 1, _, [] => none
  | fuel + 1, before, c :: r =>
    if c = '"' then some (String.ofList before.reverse, r)
    else if c = '\\' then
      match readEscape? r with
      | some (d, r) => readQuoted? fuel (d :: before) r
      | none => none
    else if c.toNat < 32 then none
    else readQuoted? fuel (c :: before) r

def readString? (s : List Char) : Option (String × List Char) := readQuoted? (s.length + 1) [] s

def readItems? (value : List Char → Option (Json × List Char)) :
    Nat → List Json → List Char → Option (Json × List Char)
  | 0, _, _ => none
  | fuel + 1, before, s => do
    let (j, r) ← value s
    match skipSpace r with
    | ']' :: r => some (.list (j :: before).reverse, r)
    | ',' :: r => readItems? value fuel (j :: before) (skipSpace r)
    | _ => none

def readFields? (value : List Char → Option (Json × List Char)) :
    Nat → List (String × Json) → List Char → Option (Json × List Char)
  | 0, _, _ => none
  | fuel + 1, before, s =>
    match s with
    | '"' :: r => do
      let (k, r) ← readString? r
      match skipSpace r with
      | ':' :: r =>
        let (j, r) ← value (skipSpace r)
        match skipSpace r with
        | '}' :: r => some (.object ((k, j) :: before).reverse, r)
        | ',' :: r => readFields? value fuel ((k, j) :: before) (skipSpace r)
        | _ => none
      | _ => none
    | _ => none

/-- Reads one value that starts right here, with at most `depth` brackets open at once. -/
def readValue? : Nat → List Char → Option (Json × List Char)
  | depth, s =>
    match s with
    | [] => none
    | c :: r =>
      if c = '"' then (readString? r).map fun (t, r) => (.text t, r)
      else if c = 'n' then (Text.dropStart? ['u', 'l', 'l'] r).map fun r => (.null, r)
      else if c = 't' then (Text.dropStart? ['r', 'u', 'e'] r).map fun r => (.bool true, r)
      else if c = 'f' then (Text.dropStart? ['a', 'l', 's', 'e'] r).map fun r => (.bool false, r)
      else if c = '[' then
        match depth with
        | 0 => none
        | depth + 1 => match skipSpace r with
          | ']' :: r => some (.list [], r)
          | r => readItems? (readValue? depth) (r.length + 1) [] r
      else if c = '{' then
        match depth with
        | 0 => none
        | depth + 1 => match skipSpace r with
          | '}' :: r => some (.object [], r)
          | r => readFields? (readValue? depth) (r.length + 1) [] r
      else readNumber? s

def maxDepth : Nat := 127

def read? (s : String) : Option Json :=
  match readValue? maxDepth (skipSpace s.toList) with
  | some (j, r) => if (skipSpace r).isEmpty then some j else none
  | none => none

end SiteTree.Json
