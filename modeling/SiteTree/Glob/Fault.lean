/-!
What can be wrong with a glob.
-/

namespace SiteTree.Glob

inductive Fault where
  | openClass
  | descendingRange (low high : Char)
  | unopenedGroup
  | openGroup
  | lastEscape
  deriving DecidableEq, Repr

def Fault.text : Fault → String
  | .openClass => "unclosed character class; missing ']'"
  | .descendingRange low high => "invalid range; '" ++ low.toString ++ "' > '" ++ high.toString ++ "'"
  | .unopenedGroup => "unopened alternate group; missing '\x7b' (maybe escape '\x7d' with '[\x7d]'?)"
  | .openGroup => "unclosed alternate group; missing '\x7d' (maybe escape '\x7b' with '[\x7b]'?)"
  | .lastEscape => "dangling '\\'"

end SiteTree.Glob
