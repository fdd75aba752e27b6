import SiteTree.Chain
import SiteTree.Proofs.Action

/-!
What a chain keeps of the files if each link does: the files that links make are offered on.
-/

namespace SiteTree

open SiteTree.Action

variable {J : FileSystem → Prop} {T : Path → Prop} {links : List (Link World Failure)}
    {w w' : World} {p : Waiting}

/-- A link that keeps a property of the files as long as its targets are of one kind, and makes
only files of that kind. -/
structure Link.Keeps (J : FileSystem → Prop) (T : Path → Prop) (l : Link World Failure) : Prop where
  keeps : ∀ source {target}, T target → Action.Keeps J (l.offer source target)
  produces : ∀ {source target w w' paths}, T target → l.offer source target w = .ok (.produced paths) w' →
    ∀ q ∈ paths, T q

namespace Chain

theorem offerFrom_keeps (h : ∀ l ∈ links, l.Keeps J T) (hp : T p.target) (i : Nat) :
    Action.Keeps J (offerFrom p i links) := by
  induction links generalizing i with
  | nil => exact Keeps.pure _
  | cons l links ih =>
      have hrest := ih (fun k hk => h k (List.mem_cons_of_mem _ hk)) (i + 1)
      rw [offerFrom]
      split
      · exact hrest
      · refine ((h l (by simp)).keeps p.source hp).bind fun outcome => ?_
        split
        · exact hrest
        · exact Keeps.pure _

theorem offerFrom_produces (h : ∀ l ∈ links, l.Keeps J T) (hp : T p.target) {i j : Nat} {name : String}
    {outcome : Outcome} (hr : offerFrom p i links w = .ok (some (j, name, outcome)) w') :
    ∀ q ∈ Outcome.files j outcome, T q.target := by
  induction links generalizing i w with
  | nil => cases hr
  | cons l links ih =>
      have hl : ∀ k ∈ links, k.Keeps J T := fun k hk => h k (List.mem_cons_of_mem _ hk)
      rw [offerFrom] at hr
      split at hr
      · exact ih hl hr
      · obtain ⟨outcome', w₁, ho, hr⟩ := bind_eq_ok hr
        split at hr
        · exact ih hl hr
        · cases hr
          intro q hq
          cases outcome with
          | declined | finished => cases hq
          | produced paths =>
              obtain ⟨path, hpath, rfl⟩ := List.mem_map.1 hq
              exact (h l (by simp)).produces hp ho path hpath

variable {announce : String → Waiting → Action Unit}

theorem process_keeps (h : ∀ l ∈ links, l.Keeps J T) (ha : ∀ name p, Action.Keeps J (announce name p))
    (hp : T p.target) : Action.Keeps J (process links announce p) := by
  refine (offerFrom_keeps h hp 0).bind fun taken => ?_
  split
  · exact Keeps.pure _
  · exact (ha _ _).bind fun _ => Keeps.pure _

theorem process_produces (h : ∀ l ∈ links, l.Keeps J T) (hp : T p.target) {taken : Bool}
    {files : List Waiting}
    (hr : process links announce p w = .ok (taken, files) w') : ∀ q ∈ files, T q.target := by
  rw [process] at hr
  obtain ⟨found, w₁, ho, hr⟩ := bind_eq_ok hr
  cases found with
  | none => cases hr; nofun
  | some f =>
      obtain ⟨-, w₂, -, hr⟩ := bind_eq_ok hr
      cases hr
      exact offerFrom_produces h hp ho

/-- The induction is on the files that may still be taken up. -/
theorem drain_keeps (h : ∀ l ∈ links, l.Keeps J T) (ha : ∀ name p, Action.Keeps J (announce name p)) (n : Nat)
    {queue : List Waiting} (hq : ∀ p ∈ queue, T p.target) (applied : Bool) :
    Action.Keeps J (drain links announce n queue applied) := by
  induction n generalizing queue applied with
  | zero => cases queue <;> exact Keeps.pure _
  | succ n ih =>
      cases queue with
      | nil => exact Keeps.pure _
      | cons p queue =>
          intro w hw
          have hp : T p.target := hq p (by simp)
          refine bind_keeps (process_keeps h ha hp w hw) fun v w₁ hr hw₁ => ?_
          obtain ⟨taken, files⟩ := v
          refine ih (fun q hmem => ?_) _ w₁ hw₁
          rcases List.mem_append.1 hmem with hmem | hmem
          · exact hq q (List.mem_cons_of_mem _ hmem)
          · exact process_produces h hp hr q hmem

theorem run_keeps (h : ∀ l ∈ links, l.Keeps J T)
    (ha : ∀ name p, Action.Keeps J (announce name p)) (limit : Nat)
    (source : Path) {target : Path} (ht : T target) :
    Action.Keeps J (run links announce limit source target) :=
  drain_keeps h ha limit (by simpa using ht) false

end Chain

end SiteTree
