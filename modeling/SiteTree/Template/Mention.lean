import SiteTree.Template.Basic

/-!
The names that a template mentions.
-/

namespace SiteTree.Template

namespace Expr

mutual

def mentions : Expr → List String
  | literal .. => []
  | name _ id => [id]
  | captured _ => []
  | opposite e => mentions e
  | negate _ e => mentions e
  | binary _ left right => mentions left ++ mentions right
  | both left right => mentions left ++ mentions right
  | either left right => mentions left ++ mentions right
  | choose check yes no => mentions check ++ mentions yes ++ mentions no
  | filter _ subject _ args => mentions subject ++ mentionsAll args
  | test _ subject _ args => mentions subject ++ mentionsAll args
  | field owner _ => mentions owner
  | item owner key => mentions owner ++ mentions key
  | slice owner start stop step =>
    mentions owner ++ mentions start ++ mentions stop ++ mentions step
  | call callee _ args => mentions callee ++ mentionsAll args
  | list _ items => mentionsAll items
  | map _ keys values => mentionsAll keys ++ mentionsAll values

def mentionsAll : List Expr → List String
  | [] => []
  | e :: r => mentions e ++ mentionsAll r

end

end Expr

namespace Target

mutual

def mentions : Target → List String
  | name _ => []
  | parts _ targets => mentionsAll targets
  | field owner _ => owner.mentions

def mentionsAll : List Target → List String
  | [] => []
  | t :: r => mentions t ++ mentionsAll r

end

end Target

namespace Stmt

mutual

def mentions : Stmt → List String
  | text _ => []
  | emit e => e.mentions
  | loop target source filter _ body otherwise =>
    target.mentions ++ source.mentions ++ Expr.mentionsAll filter.toList ++ mentionsAll body ++
      mentionsAll otherwise
  | choose check yes no => check.mentions ++ mentionsAll yes ++ mentionsAll no
  | bindIn bindings body => Target.mentionsAll (bindings.map (·.1)) ++
    Expr.mentionsAll (bindings.map (·.2)) ++ mentionsAll body
  | set target value => target.mentions ++ value.mentions
  | setBlock target filter body =>
    target.mentions ++ Expr.mentionsAll filter.toList ++ mentionsAll body
  | escape mode body => mode.mentions ++ mentionsAll body
  | filterBlock filter body => filter.mentions ++ mentionsAll body
  | block .. => []
  | extend _ name => name.mentions
  | insert _ name _ => name.mentions
  | importAll _ source _ => source.mentions
  | importSome _ source _ => source.mentions
  | define _ _ defaults body => Expr.mentionsAll defaults ++ mentionsAll body
  | callBlock call _ defaults body =>
    call.mentions ++ Expr.mentionsAll defaults ++ mentionsAll body
  | perform call => call.mentions
  | stop => []
  | skip => []

def mentionsAll : List Stmt → List String
  | [] => []
  | s :: r => mentions s ++ mentionsAll r

end

end Stmt

end SiteTree.Template
