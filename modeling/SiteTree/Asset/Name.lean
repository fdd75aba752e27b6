import SiteTree.Path

/-!
Names that carry the hash of the content, in front of the extension.
-/

namespace SiteTree.Asset

open Text

def carries (stem hash : List Char) : Bool := ('-' :: hash).isSuffixOf stem

/-- Puts the hash in front of the extension. A name that carries it already stays as it is. -/
def stamp? (name hash : String) : Option String := do
  let file ← Path.fileChars? ⟨name⟩
  let (stem, ext) := Path.cutName file
  if carries stem hash.toList then none
  else
    let marked := stem ++ '-' :: hash.toList
    match ext with
    | some ext => some (String.ofList (marked ++ '.' :: ext))
    | none => some (String.ofList marked)

/-- Pages keep their names, so that their addresses stay. -/
def isPage (path : Path) : Bool := path.hasExtension "html"

end SiteTree.Asset
