import SiteTree.Template.Operator
import SiteTree.Template.Value.Json

/-!
Escapes, by which a value that is written into a page cannot be taken for anything but text.
-/

namespace SiteTree.Template

inductive Escaping where
  | off
  | html
  | json
  deriving DecidableEq, Repr

namespace Escaping

def htmlChar (c : Char) : List Char :=
  if c = '&' then "&amp;".toList
  else if c = '<' then "&lt;".toList
  else if c = '>' then "&gt;".toList
  else if c = '"' then "&quot;".toList
  else if c = '\'' then "&#x27;".toList
  else if c = '/' then "&#x2f;".toList
  else [c]

def htmlText (s : String) : String := String.ofList (s.toList.flatMap htmlChar)

def jsonText (v : Value) : Outcome String :=
  match v.toJson? with
  | some j => .ok j.print
  | none => refuse .badSerialization "could not serialize to JSON"

def write (mode : Escaping) (v : Value) : Outcome String :=
  match mode, v with
  | _, .text s true => .ok s
  | .off, v => .ok v.display
  | .json, v => jsonText v
  | .html, .undefined | .html, .nothing | .html, .bool _ | .html, .whole _ | .html, .real _ =>
    .ok v.display
  | .html, v => .ok (htmlText v.display)

def mark (mode : Escaping) (s : String) : Value := .text s (mode != .off)

end Escaping

def isAddressByte (b : UInt8) : Bool :=
  let c := Char.ofNat b.toNat
  b < 128 && (c.isAlphanum || c = '/' || c = '.' || c = '-' || c = '_')

def percentByte (b : UInt8) : List Char :=
  if isAddressByte b then [Char.ofNat b.toNat]
  else
    let digit (n : Nat) : Char := (Nat.digitChar n).toUpper
    ['%', digit (b.toNat / 16), digit (b.toNat % 16)]

def addressText (s : String) : String :=
  String.ofList (s.toUTF8.toList.flatMap percentByte)

end SiteTree.Template
