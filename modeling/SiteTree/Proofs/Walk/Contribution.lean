import SiteTree.Walk
import SiteTree.Proofs.FileSystem.Entry

/-!
The files that a walk through a source tree comes to, told from the tree alone, and where in the
output what becomes of each of them is to be found.
-/

namespace SiteTree.Walk

open FileSystem EntryName

/-- A file of the source tree, the names of its target below the destination, and its scope. -/
structure Contribution where
  source : Location
  target : List String
  scope : Scope

namespace Contribution

def name (c : Contribution) : String := c.source.getLast?.getD ""

/-- The kind of the links that take the file, if the chain has any for its extension. -/
def taker? (links : List LinkKind) (c : Contribution) : Option LinkKind :=
  links.find? fun kind => (Path.cutName c.name.toList).2 = some kind.name.toList

/-- A page named for the index stays where it is, and any other gets a directory of its own. -/
def pageTarget (target : List String) : List String :=
  let stem := String.ofList (Path.cutName (target.getLast?.getD "").toList).1
  target.dropLast ++ if stem = "index" then ["index.html"] else [stem, "index.html"]

theorem pageTarget_append (l : List String) (s : String) : pageTarget (l ++ [s]) =
    l ++ if String.ofList (Path.cutName s.toList).1 = "index" then ["index.html"]
      else [String.ofList (Path.cutName s.toList).1, "index.html"] := by
  simp [pageTarget]

/-- Where the output has what becomes of the file; nowhere if it is a stylesheet to be imported. -/
def layout (links : List LinkKind) (c : Contribution) : Option (List String) :=
  match c.taker? links with
  | some .page => some (pageTarget c.target)
  | some .stylesheet => if c.name = Stylesheet.entryName then some c.target else none
  | none => some c.target

end Contribution

/-- What the walk passes over, by the names that lead to it from the source root. -/
def passedOver (limits : Limits) (root : Path) (rel : List String) : Bool :=
  limits.skip.any (·.alike (root.descend rel)) || limits.ignore.hides ⟨"/".intercalate rel⟩

theorem passedOver_descend {limits : Limits} {root : Path} {rel : List String} (hroot : root.text ≠ "")
    (hrel : ∀ s ∈ rel, IsName s) (hne : rel ≠ []) : passedOver limits root rel =
      (limits.skip.any (·.alike (root.descend rel)) || limits.ignore.hides ((root.descend rel).relativeTo root)) := by
  rw [Path.relativeTo_descend hroot hrel hne, Path.ofChars_glue, passedOver]

def expansionsOf (name : String) (scope : Scope) : List Expansion := (expand name scope).toOption.getD []

/-- The contents of a loop take its place. -/
def innerTarget (target : List String) (e : Expansion) : List String :=
  if e.form = .loop then target else target ++ [e.name]

/-- What one entry of a directory contributes, given what the directories below do. -/
def contributed (limits : Limits) (fs : FileSystem) (root : Path) (loc : Location)
    (inner : List String → List String → Scope → List Contribution) (rel target : List String) (scope : Scope)
    (name : String) : List Contribution :=
  if passedOver limits root (rel ++ [name]) then []
  else (expansionsOf name scope).flatMap fun e =>
    if isDirectoryAt fs (loc ++ (rel ++ [name])) then inner (rel ++ [name]) (innerTarget target e) e.scope
    else [⟨loc ++ (rel ++ [name]), target ++ [e.name], e.scope⟩]

/-- The files below a directory, in the order of the names and, in a loop, of its items. -/
def contributions (limits : Limits) (fs : FileSystem) (root : Path) (loc : Location) :
    Nat → List String → List String → Scope → List Contribution
  | 0, _, _, _ => []
  | n + 1, rel, target, scope => (fs.children (loc ++ rel)).flatMap
      (contributed limits fs root loc (contributions limits fs root loc n) rel target scope)

theorem flatMap_filter_of_nil {α β : Type} {l : List α} {p : α → Bool} {f : α → List β}
    (h : ∀ a ∈ l, p a = false → f a = []) : (l.filter p).flatMap f = l.flatMap f := by
  induction l with
  | nil => rfl
  | cons a l ih =>
      have hl := ih fun b hb => h b (List.mem_cons_of_mem a hb)
      cases hp : p a with
      | true => rw [List.filter_cons_of_pos hp, List.flatMap_cons, List.flatMap_cons, hl]
      | false =>
          rw [List.filter_cons_of_neg (by simp [hp]), List.flatMap_cons, h a (by simp) hp, hl, List.nil_append]

section

variable {limits : Limits} {fs fs' : FileSystem} {root : Path} {loc top : Location} {rel target : List String}
  {scope : Scope}

/-- All that a tree has more than another are directories, but for a part that the walk passes over. -/
structure GrowsOff (top : Location) (fs fs' : FileSystem) : Prop where
  node : ∀ x, ¬ top <+: x → fs'.at? x = fs.at? x ∨ fs.at? x = none ∧ fs'.at? x = some .directory
  directory : fs'.at? top = some .directory

variable (hw : fs.WellFormed) (hg : GrowsOff top fs fs')
  (hskip : ∀ rel, loc ++ rel = top → passedOver limits root rel = true)

include hskip in
theorem not_prefix_of_entered {name : String} (hoff : ¬ top <+: loc ++ rel)
    (h : passedOver limits root (rel ++ [name]) = false) : ¬ top <+: loc ++ (rel ++ [name]) := by
  rw [← List.append_assoc, List.prefix_concat_iff]
  rintro (he | hpre)
  · rw [hskip (rel ++ [name]) (by rw [he, List.append_assoc])] at h
    cases h
  · exact hoff hpre

include hg hskip

/-- What is new and not passed over is a directory. -/
theorem contributed_eq_nil {inner : List String → List String → Scope → List Contribution} {name : String}
    (hoff : ¬ top <+: loc ++ rel) (hname : name ∈ fs'.children (loc ++ rel))
    (hnone : fs.at? (loc ++ (rel ++ [name])) = none)
    (hinner : ¬ top <+: loc ++ (rel ++ [name]) → ∀ target scope, inner (rel ++ [name]) target scope = []) :
    contributed limits fs' root loc inner rel target scope name = [] := by
  cases hpass : passedOver limits root (rel ++ [name]) with
  | true => simp [contributed, hpass]
  | false =>
      have hoff' := not_prefix_of_entered hskip hoff hpass
      have hd : fs'.at? (loc ++ (rel ++ [name])) = some .directory := by
        have hsome := mem_children.1 hname
        rw [List.append_assoc] at hsome
        rcases hg.node _ hoff' with he | ⟨-, hd⟩
        · rw [he, hnone] at hsome
          cases hsome
        · exact hd
      simp [contributed, isDirectoryAt_iff.2 hd, hinner hoff']

include hw

theorem contributions_eq_nil (n : Nat) (hoff : ¬ top <+: loc ++ rel) (hnone : fs.at? (loc ++ rel) = none) :
    contributions limits fs' root loc n rel target scope = [] := by
  induction n generalizing rel target scope with
  | zero => rfl
  | succ n ih =>
      rw [contributions, List.flatMap_eq_nil_iff]
      intro name hname
      have hnot : fs.at? (loc ++ rel) ≠ some .directory := by simp [hnone]
      have hbelow : fs.at? (loc ++ (rel ++ [name])) = none := hw.at?_below hnot (by simp) (by simp)
      exact contributed_eq_nil hg hskip hoff hname hbelow fun hoff' _ _ => ih hoff' hbelow

/-- New directories contribute nothing. -/
theorem contributions_grown (n : Nat) (hoff : ¬ top <+: loc ++ rel) :
    contributions limits fs' root loc n rel target scope = contributions limits fs root loc n rel target scope := by
  induction n generalizing rel target scope with
  | zero => rfl
  | succ n ih =>
      have hchildren : fs.children (loc ++ rel) = (fs'.children (loc ++ rel)).filter fun name =>
          (fs.at? (loc ++ (rel ++ [name]))).isSome := by
        refine sorted_ext (children_sorted _ _) ((children_sorted _ _).filter _) fun name => ?_
        rw [List.mem_filter, mem_children, mem_children, List.append_assoc]
        refine (and_iff_right_of_imp fun hsome => ?_).symm
        by_cases htop : top <+: loc ++ (rel ++ [name])
        · rw [← List.append_assoc, List.prefix_concat_iff] at htop
          rw [← List.append_assoc, ← htop.resolve_right hoff, hg.directory]
          rfl
        · rcases hg.node _ htop with he | ⟨-, hd⟩
          · rwa [he]
          · rw [hd]
            rfl
      calc (fs'.children (loc ++ rel)).flatMap
            (contributed limits fs' root loc (contributions limits fs' root loc n) rel target scope)
        _ = (fs.children (loc ++ rel)).flatMap
            (contributed limits fs' root loc (contributions limits fs' root loc n) rel target scope) := by
          rw [hchildren, flatMap_filter_of_nil fun name hname hnone => ?_]
          have hnone' : fs.at? (loc ++ (rel ++ [name])) = none := by simpa using hnone
          exact contributed_eq_nil hg hskip hoff hname hnone' fun hoff' _ _ =>
            contributions_eq_nil hw hg hskip n hoff' hnone'
        _ = (fs.children (loc ++ rel)).flatMap
            (contributed limits fs root loc (contributions limits fs root loc n) rel target scope) := by
          refine List.flatMap_congr fun name hname => ?_
          cases hpass : passedOver limits root (rel ++ [name]) with
          | true => simp [contributed, hpass]
          | false =>
              have hoff' := not_prefix_of_entered hskip hoff hpass
              have hsome := mem_children.1 hname
              rw [List.append_assoc] at hsome
              have hnode : fs'.at? (loc ++ (rel ++ [name])) = fs.at? (loc ++ (rel ++ [name])) := by
                rcases hg.node _ hoff' with he | ⟨hnone, -⟩
                · exact he
                · rw [hnone] at hsome
                  cases hsome
              simp only [contributed, isDirectoryAt, hnode, ih hoff']
              rfl

end

end SiteTree.Walk
