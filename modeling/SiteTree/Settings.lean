import SiteTree.Json.Basic
import SiteTree.Path

/-!
The settings of a configuration file.
-/

namespace SiteTree

/-- Values of the scope keep the order in which their keys first appear. -/
structure Settings where
  source : Option Path
  output : Option Path
  ignore : List String
  scope : List (String × Json)
  links : List String
  clean : Option Bool
  hash : Option Bool

namespace Settings

def none : Settings := ⟨.none, .none, [], [], [], .none, .none⟩

inductive Field where
  | source
  | output
  | ignore
  | scope
  | links
  | clean
  | hash
  deriving DecidableEq, Repr

def Field.name : Field → String
  | .source => "source"
  | .output => "output"
  | .ignore => "ignore"
  | .scope => "scope"
  | .links => "transforms"
  | .clean => "clean"
  | .hash => "hash"

def Field.all : List Field := [.source, .output, .ignore, .scope, .links, .clean, .hash]

def Field.ofName? (name : String) : Option Field := Field.all.find? fun f => f.name = name

/-- A later value for a key takes the place of an earlier one. -/
def setLast (key : String) (value : Json) : List (String × Json) → List (String × Json)
  | [] => [(key, value)]
  | (k, v) :: r => if k = key then (k, value) :: r else (k, v) :: setLast key value r

def keepLast (pairs : List (String × Json)) : List (String × Json) :=
  pairs.foldl (fun l p => setLast p.1 p.2 l) []

/-- Relative roots are taken from the given directory. -/
def relativeTo (s : Settings) (base : Path) : Settings :=
  { s with source := s.source.map base.join, output := s.output.map base.join }

end Settings

end SiteTree
