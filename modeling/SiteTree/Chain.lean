import SiteTree.Path

/-!
Chains of links. A file is offered to the links in order until one takes it. Files that a link
makes out of it are offered in their turn to every link but the one that made them.
-/

namespace SiteTree

inductive Outcome where
  | declined
  | finished
  | produced (paths : List Path)
  deriving DecidableEq, Repr

variable {σ ε : Type}

/-- A link may act on a state of type `σ` and fail with an `ε`. -/
structure Link (σ ε : Type) where
  name : String
  offer : Path → Path → EStateM ε σ Outcome

/-- A file that waits, and the position of the link that made it. -/
structure Waiting where
  source : Path
  target : Path
  producer : Option Nat
  deriving DecidableEq, Repr

namespace Chain

/-- The first link that does not decline: its position, name and outcome. -/
def offerFrom (p : Waiting) : Nat → List (Link σ ε) → EStateM ε σ (Option (Nat × String × Outcome))
  | _, [] => pure none
  | i, l :: r =>
    if p.producer = some i then offerFrom p (i + 1) r
    else do
      match ← l.offer p.source p.target with
      | .declined => offerFrom p (i + 1) r
      | outcome => pure (some (i, l.name, outcome))

def Outcome.files (position : Nat) : Outcome → List Waiting
  | .produced paths => paths.map fun path => ⟨path, path, some position⟩
  | _ => []

/-- Offers one file; the answer is whether a link took it, and the files that it made. -/
def process (links : List (Link σ ε)) (announce : String → Waiting → EStateM ε σ Unit)
    (p : Waiting) : EStateM ε σ (Bool × List Waiting) := do
  match ← offerFrom p 0 links with
  | none => pure (false, [])
  | some (i, name, outcome) => do
    announce name p
    pure (true, Outcome.files i outcome)

/-- Works through the files that wait, at most so many; `none` if that was not enough. -/
def drain (links : List (Link σ ε)) (announce : String → Waiting → EStateM ε σ Unit) :
    Nat → List Waiting → Bool → EStateM ε σ (Option Bool)
  | _, [], applied => pure (some applied)
  | 0, _ :: _, _ => pure none
  | n + 1, p :: queue, applied => do
    let (taken, files) ← process links announce p
    drain links announce n (queue ++ files) (applied || taken)

/-- Runs a file through the chain; the answer is whether any link took it. -/
def run (links : List (Link σ ε)) (announce : String → Waiting → EStateM ε σ Unit) (limit : Nat)
    (source target : Path) : EStateM ε σ (Option Bool) :=
  drain links announce limit [⟨source, target, none⟩] false

end Chain

end SiteTree
