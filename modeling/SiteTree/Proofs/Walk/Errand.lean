import SiteTree.Proofs.Walk.Contribution
import SiteTree.Proofs.Walk.Deposit

/-!
What a walk has to do, told from the source tree alone: the files that it is to give to their targets, and the failures
that it is to come to, in their order. What it does to the destination is to carry this out, one errand after another.
-/

namespace SiteTree.Walk

open SiteTree.Action FileSystem EntryName SiteTree.Path

/-- A file to give to its target, or a failure to come to. -/
abbrev Errand := Except Failure Contribution

def errandsOn (fs : FileSystem) (loc : Location) (inner : List String → List String → Scope → List Errand)
    (rel target : List String) (name : String) (e : Expansion) : List Errand :=
  if isDirectoryAt fs (loc ++ (rel ++ [name])) then inner (rel ++ [name]) (innerTarget target e) e.scope
  else if e.form = .loop then [.error (.loop name .onFile)]
  else [.ok ⟨loc ++ (rel ++ [name]), target ++ [e.name], e.scope⟩]

/-- What there is to do for one entry of a directory, given that for the directories below. -/
def errandsOf (limits : Limits) (fs : FileSystem) (root : Path) (loc : Location)
    (inner : List String → List String → Scope → List Errand) (rel target : List String) (scope : Scope)
    (name : String) : List Errand :=
  if passedOver limits root (rel ++ [name]) then []
  else match expand name scope with
    | .error e => [.error e]
    | .ok expansions => expansions.flatMap (errandsOn fs loc inner rel target name)

def errands (limits : Limits) (fs : FileSystem) (root : Path) (loc : Location) :
    Nat → List String → List String → Scope → List Errand
  | 0, rel, _, _ => [.error (.read (root.descend rel) .tooDeep)]
  | n + 1, rel, target, scope => (fs.children (loc ++ rel)).flatMap
      (errandsOf limits fs root loc (errands limits fs root loc n) rel target scope)

section

variable {limits : Limits} {fs : FileSystem} {root : Path} {loc : Location} {n : Nat} {rel target : List String} {scope : Scope}

theorem errands_congr {limits' : Limits} (h : passedOver limits' root = passedOver limits root) (n : Nat)
    (rel target : List String) (scope : Scope) :
    errands limits' fs root loc n rel target scope = errands limits fs root loc n rel target scope := by
  induction n generalizing rel target scope with
  | zero => rfl
  | succ n ih =>
      have hbelow : errands limits' fs root loc n = errands limits fs root loc n := by
        funext rel target scope
        exact ih rel target scope
      rw [errands, errands, hbelow]
      refine List.flatMap_congr fun name _ => ?_
      rw [errandsOf, errandsOf, h]

/-- If there is no failure to come to, the errands are the files that the tree contributes. -/
theorem errands_eq_contributions (h : ∀ x ∈ errands limits fs root loc n rel target scope, ∃ c, x = .ok c) :
    errands limits fs root loc n rel target scope = (contributions limits fs root loc n rel target scope).map .ok := by
  induction n generalizing rel target scope with
  | zero =>
      obtain ⟨c, hc⟩ := h _ (List.mem_singleton.2 rfl)
      cases hc
  | succ n ih =>
      rw [errands, contributions, List.map_flatMap]
      refine List.flatMap_congr fun name hname => ?_
      have hone : ∀ x ∈ errandsOf limits fs root loc (errands limits fs root loc n) rel target scope name,
          ∃ c, x = .ok c := fun x hx => h x (List.mem_flatMap.2 ⟨name, hname, hx⟩)
      rw [errandsOf] at hone ⊢
      rw [contributed]
      split
      · rfl
      · next hpass =>
        rw [if_neg hpass] at hone
        rw [expansionsOf]
        cases hexp : expand name scope with
        | error e =>
            rw [hexp] at hone
            obtain ⟨c, hc⟩ := hone _ (List.mem_singleton.2 rfl)
            cases hc
        | ok expansions =>
            rw [hexp] at hone
            show expansions.flatMap _ = (expansions.flatMap _).map _
            rw [List.map_flatMap]
            refine List.flatMap_congr fun e he => ?_
            have hthis : ∀ x ∈ errandsOn fs loc (errands limits fs root loc n) rel target name e, ∃ c, x = .ok c :=
              fun x hx => hone x (List.mem_flatMap.2 ⟨e, he, hx⟩)
            rw [errandsOn] at hthis ⊢
            split
            · next hd =>
              rw [if_pos hd] at hthis
              exact ih hthis
            · next hd =>
              rw [if_neg hd] at hthis
              split
              · next hloop =>
                rw [if_pos hloop] at hthis
                obtain ⟨c, hc⟩ := hthis _ (List.mem_singleton.2 rfl)
                cases hc
              · rfl

end

/-- The source is where it is to be, and so is the destination, or it can be made. All that was there is there, and outside
of the destination nothing has changed, but that the levels above it are there. -/
structure Ready (cwd : Location) (source : Path) (loc : Location) (dest : Path) (top : Location)
    (fs₀ fs : FileSystem) : Prop where
  wellFormed : fs.WellFormed
  source : fs.LeadsTo cwd source loc
  dest : fs.LeadsTo cwd dest top ∨ fs.Vacates dest top
  linkFree : fs.LinkFree top
  kept : fs₀.Extends fs
  outside : ∀ x, ¬ top <+: x → fs.at? x = fs₀.at? x ∨ x <+: top ∧ fs₀.at? top = none

namespace Ready

variable {cwd : Location} {source dest : Path} {loc top x : Location} {fs₀ fs : FileSystem}
  (h : Ready cwd source loc dest top fs₀ fs) (hd : fs₀.at? top ≠ none)

include h hd

theorem unchanged (hx : ¬ top <+: x) : fs.at? x = fs₀.at? x := (h.outside x hx).resolve_right fun hc => hd hc.2

/-- If there were no links, there are none. -/
theorem linkFree_all (hfree : fs₀.LinkFree []) : fs.LinkFree [] := by
  intro x target _ hx
  by_cases htop : top <+: x
  · exact h.linkFree x target htop hx
  · exact hfree x target List.nil_prefix ((h.unchanged hd htop).symm.trans hx)

end Ready

/-- A walk to make: from a source without links to a directory that it is not in, and that the walk passes over if it is
in the source itself. If it is not there yet, it is not in the source. -/
structure Trip where
  limits : Limits
  cwd : Location
  source : Path
  loc : Location
  dest : Path
  top : Location
  files : FileSystem
  ready : Ready cwd source loc dest top files files
  linkFree : files.LinkFree loc
  off : ¬ top <+: loc
  passed : ∀ rel, loc ++ rel = top → passedOver limits source rel = true
  apart : files.at? top = none → ¬ loc <+: top

namespace Trip

variable {T : Trip} {astray : Prop} {dest source : Path} {names : List String} {bytes : ByteArray}
  {fs fs' fs₁ fs₂ : FileSystem} {outcome : Option Failure} {e : Failure} {L L' : List Errand} {x y top : Location} {w w' : World}

abbrev Holds (T : Trip) (fs : FileSystem) : Prop := Ready T.cwd T.source T.loc T.dest T.top T.files fs

/-- What the walk has to do in a directory of the source. -/
abbrev errands (T : Trip) (n : Nat) (rel target : List String) (scope : Scope) : List Errand :=
  Walk.errands T.limits T.files T.source T.loc n rel target scope

/-- The walk can go on from here. -/
structure Stands (T : Trip) (w : World) : Prop where
  holds : T.Holds w.files
  cwd : w.cwd = T.cwd

theorem delivers_holds (hfs : T.Holds fs) (h : Delivers T.dest T.top names bytes fs outcome fs') : T.Holds fs' := by
  have hcases := h.at?_cases
  have hextends := h.extension
  have hw := h.wellFormed hfs.wellFormed
  refine ⟨hw, hfs.source.mono hextends.outgrows, ?_, fun y target hy hat => ?_, hfs.kept.trans hextends, fun y hy => ?_⟩
  · rcases hfs.dest with hleads | hv
    · exact .inl (hleads.mono hextends.outgrows)
    · cases h with
      | kept | refused => exact .inr hv
      | copied hnil _ _ hd =>
          refine .inl (leadsTo_of_spells hw hv.spells ?_ T.cwd)
          rw [hd.at?_eq, if_neg (by simpa using hnil), if_pos (List.prefix_append _ _)]
  · rcases hcases y with he | ⟨-, -, -, hlink⟩
    · exact hfs.linkFree y target hy (he ▸ hat)
    · exact hlink target hat
  · rcases hcases y with he | ⟨hnone, hcomparable, -⟩
    · rw [he]
      exact hfs.outside y hy
    · have hpre := hcomparable.resolve_left hy
      refine .inr ⟨hpre, ?_⟩
      cases htop : T.files.at? T.top with
      | none => rfl
      | some node =>
          have hsome : (fs.at? T.top).isSome := by rw [hfs.kept _ _ htop]; rfl
          obtain ⟨r, hr⟩ := hpre
          have hne : r ≠ [] := by
            rintro rfl
            exact hy (by rw [← hr, List.append_nil])
          cases hnone.symm.trans (hfs.wellFormed.above hne (hr ▸ hsome))

/-- How a list of errands is carried out, one after another, up to the first that fails. If the walk may go astray, it is
left open what it does from where a target is not made of names. -/
inductive Carries (T : Trip) (astray : Prop) : List Errand → FileSystem → Option Failure → FileSystem → Prop
  | done {fs : FileSystem} : Carries T astray [] fs none fs
  | fails {e : Failure} {L : List Errand} {fs : FileSystem} : Carries T astray (.error e :: L) fs (some e) fs
  | gives {c : Contribution} {L : List Errand} {bytes : ByteArray} {fs fs₁ fs₂ : FileSystem} {outcome : Option Failure}
      (hn : ∀ s ∈ c.target, IsName s) (hfile : T.files.at? c.source = some (.file bytes))
      (h : Delivers T.dest T.top c.target bytes fs none fs₁) (hrest : Carries T astray L fs₁ outcome fs₂) :
      Carries T astray (.ok c :: L) fs outcome fs₂
  | refused {c : Contribution} {L : List Errand} {bytes : ByteArray} {fs fs₁ : FileSystem} {e : Failure}
      (hn : ∀ s ∈ c.target, IsName s) (hfile : T.files.at? c.source = some (.file bytes))
      (h : Delivers T.dest T.top c.target bytes fs (some e) fs₁) : Carries T astray (.ok c :: L) fs (some e) fs₁
  | strays {c : Contribution} {L : List Errand} {fs fs₁ : FileSystem} {outcome : Option Failure} (ha : astray)
      (hn : ¬ ∀ s ∈ c.target, IsName s) : Carries T astray (.ok c :: L) fs outcome fs₁

namespace Carries

/-- What comes next is carried out where the walk has come to. -/
theorem append (hfs : T.Holds fs) (h : T.Carries astray L fs none fs₁)
    (hrest : T.Holds fs₁ → T.Carries astray L' fs₁ outcome fs₂) : T.Carries astray (L ++ L') fs outcome fs₂ := by
  generalize hnone : none = first at h
  induction h with
  | done => exact hrest hfs
  | fails | refused => cases hnone
  | gives hn hfile h _ ih => exact .gives hn hfile h (ih (delivers_holds hfs h) hrest hnone)
  | strays ha hn => exact .strays ha hn

theorem stops (h : T.Carries astray L fs (some e) fs₁) (L' : List Errand) :
    T.Carries astray (L ++ L') fs (some e) fs₁ := by
  generalize hsome : some e = last at h
  induction h with
  | done => cases hsome
  | fails => exact .fails
  | gives hn hfile h _ ih => exact .gives hn hfile h (ih hsome)
  | refused hn hfile h => exact .refused hn hfile h
  | strays ha hn => exact .strays ha hn

/-- All that is there stays, and the walk could go on. -/
theorem kept (h : T.Carries False L fs outcome fs₁) (hfs : T.Holds fs) : T.Holds fs₁ ∧ fs.Extends fs₁ := by
  induction h with
  | done | fails => exact ⟨hfs, fun _ _ hx => hx⟩
  | gives hn hfile hd _ ih =>
      obtain ⟨hholds, hextends⟩ := ih (delivers_holds hfs hd)
      exact ⟨hholds, hd.extension.trans hextends⟩
  | refused hn hfile hd => exact ⟨delivers_holds hfs hd, hd.extension⟩
  | strays ha hn => exact ha.elim

end Carries

/-- The same outcome, but for how the destination is spelled. -/
inductive Respelled (T T' : Trip) : Option Failure → Option Failure → Prop
  | same (outcome : Option Failure) : Respelled T T' outcome outcome
  | refused {names : List String} (hn : ∀ s ∈ names, IsName s) (cause : Cause) :
      Respelled T T' (some (.write (T.dest.descend names) cause)) (some (.write (T'.dest.descend names) cause))

/-- Where a list of errands has been carried out, carrying it out again changes nothing and comes to the same: whatever
was given is there, and what was refused is refused for the same reason. -/
theorem Carries.again {T' : Trip} {outcome' : Option Failure} (h : T.Carries False L fs outcome fs₁) (htop : T'.top = T.top)
    (hfs : T.Holds fs) (h' : T'.Carries astray L fs₁ outcome' fs₂) : fs₂ = fs₁ ∧ Respelled T T' outcome outcome' := by
  induction h with
  | done =>
      cases h'
      exact ⟨rfl, .same _⟩
  | fails =>
      cases h'
      exact ⟨rfl, .same _⟩
  | @gives c L bytes fs fs₁ fs₃ outcome hn hfile hd hrest ih =>
      have hfs₁ := delivers_holds hfs hd
      have hthere : (fs₃.at? (T.top ++ c.target)).isSome := (hrest.kept hfs₁).2.isSome hd.isSome_at?
      rw [← htop] at hthere
      cases h' with
      | gives hn' hfile' hd' hrest' =>
          cases hd' with
          | kept => exact ih hfs₁ hrest'
          | copied _ hnone => rw [hnone] at hthere; cases hthere
      | refused hn' hfile' hd' =>
          cases hd' with
          | refused hnone => rw [hnone] at hthere; cases hthere
      | strays ha hn' => exact absurd hn hn'
  | refused hn hfile hd =>
      cases hd with
      | refused hnone ho =>
          rw [← htop] at hnone ho
          cases h' with
          | gives hn' hfile' hd' hrest' =>
              cases hd' with
              | kept hsome => rw [hnone] at hsome; cases hsome
              | copied _ hnone' ho' => exact absurd ho' ho
          | refused hn' hfile' hd' =>
              cases hd' with
              | refused hnone' ho' =>
                  rw [htop]
                  exact ⟨rfl, .refused (fun s hs => hn s (List.mem_of_mem_dropLast hs)) _⟩
          | strays ha hn' => exact absurd hn hn'
  | strays ha hn => exact ha.elim

/-- An action carries out a list of errands. -/
def Runs (T : Trip) (astray : Prop) (L : List Errand) (a : Action Unit) (w : World) : Prop :=
  T.Carries astray L w.files (failure? a w) (a.after w).files

end Trip

end SiteTree.Walk
