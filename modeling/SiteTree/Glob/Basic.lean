/-!
Globs and what they match. A glob matches the bytes of a path, so a wildcard may stand for a
slash, and a character of several bytes needs as many question marks.
-/

namespace SiteTree.Glob

/-- Members of a bracketed class: a single character is a range of one. -/
structure Range where
  low : Char
  high : Char
  deriving DecidableEq, Repr

inductive Token where
  | literal (c : Char)
  | any
  | anyRun
  | leadingDirectories
  | insideDirectory
  | innerDirectories
  | oneOf (negated : Bool) (ranges : List Range)
  | alternatives (branches : List (List Token))
  deriving Repr

abbrev Bytes := List UInt8

def charBytes (c : Char) : Bytes := c.toString.toUTF8.toList

def slash : UInt8 := 47

/-- A class holds bytes: of a longer character each byte, of a range what lies between the last
byte of its lower end and the first byte of its upper end. -/
def Range.holds (r : Range) (b : UInt8) : Bool :=
  let low := charBytes r.low
  let high := charBytes r.high
  low.contains b || high.contains b || (low.getLastD 0 ≤ b && b ≤ high.headD 0)

def tails : Bytes → List Bytes
  | [] => [[]]
  | b :: r => (b :: r) :: tails r

def afterSlashes : Bytes → List Bytes
  | [] => []
  | b :: r => if b = slash then r :: afterSlashes r else afterSlashes r

def dropBytes? : Bytes → Bytes → Option Bytes
  | [], s => some s
  | _ :: _, [] => none
  | p :: ps, b :: s => if p = b then dropBytes? ps s else none

/-- Keeps one of several rests of a text that are equally long. -/
def distinct : List Bytes → List Bytes
  | [] => []
  | s :: r => s :: (distinct r).filter (·.length ≠ s.length)

mutual

def Token.isVoid : Token → Bool
  | .alternatives branches => areVoid branches
  | _ => false

def isVoidBranch : List Token → Bool
  | [] => true
  | t :: r => t.isVoid && isVoidBranch r

def areVoid : List (List Token) → Bool
  | [] => true
  | b :: r => isVoidBranch b && areVoid r

end

mutual

/-- What may be left of a text after a token has matched its start. -/
def Token.rests : Token → Bytes → List Bytes
  | .literal c, s => (dropBytes? (charBytes c) s).toList
  | .any, s => match s with
    | [] => []
    | _ :: r => [r]
  | .anyRun, s => tails s
  | .leadingDirectories, s => s :: afterSlashes s
  | .insideDirectory, s => match s with
    | [] => []
    | b :: r => if b = slash then tails r else []
  | .innerDirectories, s => match s with
    | [] => []
    | b :: r => if b = slash then r :: afterSlashes r else []
  | .oneOf negated ranges, s => match s with
    | [] => []
    | b :: r => if ranges.any (·.holds b) != negated then [r] else []
  | .alternatives branches, s => if areVoid branches then [s] else branchRests branches s

def restsAll : List Token → Bytes → List Bytes
  | [], s => [s]
  | t :: ts, s => distinct ((t.rests s).flatMap fun r => restsAll ts r)

/-- A branch with nothing in it matches nothing. -/
def branchRests : List (List Token) → Bytes → List Bytes
  | [], _ => []
  | b :: r, s => (if isVoidBranch b then [] else restsAll b s) ++ branchRests r s

end

def Token.isLiteral : Token → Bool
  | .literal _ => true
  | _ => false

/-- Plain text after a star, or after leading directories if the text holds a slash. -/
def endsPlainly : List Token → Bool
  | .leadingDirectories :: .anyRun :: r => r.all Token.isLiteral && 1 < r.length
  | .anyRun :: r => r.all Token.isLiteral && 1 < r.length
  | .leadingDirectories :: r => r.all Token.isLiteral && r.any fun
    | .literal c => c = '/'
    | _ => false
  | r => r.all Token.isLiteral

def endsInDot (tokens : List Token) : Bool :=
  match tokens.getLast? with
  | some (.literal c) => c = '.'
  | _ => false

/-- Two dots at the end of a path are no name with an extension, not even an empty one. -/
def endsInParent (s : Bytes) : Bool :=
  match s.reverse with
  | [46, 46] => true
  | 46 :: 46 :: 47 :: _ => true
  | _ => false

end Glob

structure Glob where
  tokens : List Glob.Token
  deriving Repr

namespace Glob

def isEverything : List Token → Bool
  | [.leadingDirectories] => true
  | _ => false

def accepts (glob : Glob) (path : String) : Bool :=
  let s := path.toUTF8.toList
  isEverything glob.tokens ||
    ((restsAll glob.tokens s).any List.isEmpty &&
      !(endsInDot glob.tokens && !endsPlainly glob.tokens && endsInParent s))

end Glob

end SiteTree
