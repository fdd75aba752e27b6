import SiteTree.Proofs.EntryName
import SiteTree.Proofs.FileSystem.Names
import SiteTree.Proofs.Walk.Contribution

/-!
What a tree of literal names contributes: each of its files once, under its own names.
-/

namespace SiteTree.Walk

open FileSystem EntryName

variable {limits : Limits} {fs : FileSystem} {root : Path} {loc : Location} {rel r : List String} {scope : Scope}
  {name : String} {n : Nat} {c : Contribution}

/-- Nothing on the way down to here is passed over. -/
def Entered (limits : Limits) (root : Path) (rel : List String) : Prop :=
  ∀ k, k ≠ [] → k <+: rel → passedOver limits root k = false

theorem entered_append : Entered limits root (rel ++ [name]) ↔
    Entered limits root rel ∧ passedOver limits root (rel ++ [name]) = false := by
  constructor
  · intro h
    exact ⟨fun k hk hpre => h k hk (hpre.trans (List.prefix_append _ _)), h _ (by simp) List.prefix_rfl⟩
  · rintro ⟨hrel, hname⟩ k hk hpre
    rcases List.prefix_concat_iff.1 hpre with rfl | hpre
    · exact hname
    · exact hrel k hk hpre

/-- What is passed over is not above what the walk comes to. -/
theorem Entered.off {top : Location} (hskip : ∀ rel, loc ++ rel = top → passedOver limits root rel = true)
    (hoff : ¬ top <+: loc) (h : Entered limits root rel) : ¬ top <+: loc ++ rel := by
  induction rel using List.reverseRecOn with
  | nil => rwa [List.append_nil]
  | append_singleton rel name ih =>
      obtain ⟨hrel, hname⟩ := entered_append.1 h
      exact not_prefix_of_entered hskip (ih hrel) hname

/-- All that the walk comes to has literal names. -/
def LiteralBelow (limits : Limits) (fs : FileSystem) (root : Path) (loc : Location) : Prop :=
  ∀ rel, (fs.at? (loc ++ rel)).isSome → Entered limits root rel → ∀ s ∈ rel, form s = .literal

theorem contributed_literal (inner : List String → List String → Scope → List Contribution)
    (hl : form name = .literal) (hpass : passedOver limits root (rel ++ [name]) = false) :
    contributed limits fs root loc inner rel rel scope name =
      if isDirectoryAt fs (loc ++ (rel ++ [name])) then inner (rel ++ [name]) (rel ++ [name]) scope
      else [⟨loc ++ (rel ++ [name]), rel ++ [name], scope⟩] := by
  have hexp : expansionsOf name scope = [⟨.literal, name, scope⟩] := by
    rw [expansionsOf, expand_literal hl]
    rfl
  rw [contributed, hpass, hexp, List.flatMap_singleton]
  rfl

/-- The files of a tree of literal names, as far down as one looks. -/
theorem mem_contributions_literal (hw : fs.WellFormed) (hfree : fs.LinkFree []) (hl : LiteralBelow limits fs root loc)
    (hrel : Entered limits root rel) : c ∈ contributions limits fs root loc n rel rel scope ↔
      ∃ r, r ≠ [] ∧ r.length ≤ n ∧ c = ⟨loc ++ (rel ++ r), rel ++ r, scope⟩ ∧
        (∃ bytes, fs.at? (loc ++ (rel ++ r)) = some (.file bytes)) ∧ Entered limits root (rel ++ r) := by
  induction n generalizing rel with
  | zero =>
      constructor
      · nofun
      · rintro ⟨r, hr, hlen, -⟩
        exact absurd (List.length_eq_zero_iff.1 (by omega)) hr
  | succ n ih =>
      rw [contributions, List.mem_flatMap]
      constructor
      · rintro ⟨name, hname, hc⟩
        rw [mem_children, List.append_assoc] at hname
        cases hpass : passedOver limits root (rel ++ [name]) with
        | true => simp [contributed, hpass] at hc
        | false =>
            have hentered : Entered limits root (rel ++ [name]) := entered_append.2 ⟨hrel, hpass⟩
            rw [contributed_literal _ (hl _ hname hentered name (by simp)) hpass] at hc
            split at hc
            · obtain ⟨r, -, hlen, rfl, hfile, hr⟩ := (ih hentered).1 hc
              rw [List.append_assoc] at hfile hr ⊢
              exact ⟨name :: r, by simp, by simpa using hlen, rfl, hfile, hr⟩
            · next hd =>
              obtain rfl := List.mem_singleton.1 hc
              obtain ⟨node, hnode⟩ := Option.isSome_iff_exists.1 hname
              refine ⟨[name], by simp, by simp, rfl, ?_, hentered⟩
              cases node with
              | file bytes => exact ⟨bytes, hnode⟩
              | link target => exact absurd hnode (hfree _ target List.nil_prefix)
              | directory => exact absurd (isDirectoryAt_iff.2 hnode) hd
      · rintro ⟨r, hr, hlen, rfl, ⟨bytes, hfile⟩, hentered⟩
        obtain ⟨name, r, rfl⟩ := List.exists_cons_of_ne_nil hr
        have hsplit : rel ++ name :: r = rel ++ [name] ++ r := by simp
        rw [hsplit] at hfile hentered
        have hname : Entered limits root (rel ++ [name]) := fun k hk hpre =>
          hentered k hk (hpre.trans (List.prefix_append _ _))
        have hbelow : (fs.at? (loc ++ (rel ++ [name]) ++ r)).isSome := by
          rw [List.append_assoc, hfile]
          rfl
        have hsome := hw.isSome_above hbelow
        refine ⟨name, mem_children.2 (by rwa [List.append_assoc]), ?_⟩
        rw [contributed_literal _ (hl _ hsome hname name (by simp)) (entered_append.1 hname).2]
        by_cases hne : r = []
        · subst hne
          rw [List.append_nil] at hfile
          rw [if_neg (by simp [isDirectoryAt, hfile, FileNode.isDirectory])]
          simp
        · rw [if_pos (isDirectoryAt_iff.2 (hw.above hne hbelow))]
          refine (ih hname).2 ⟨r, hne, ?_, by rw [hsplit], ⟨bytes, hfile⟩, hentered⟩
          simp at hlen
          omega

end SiteTree.Walk
