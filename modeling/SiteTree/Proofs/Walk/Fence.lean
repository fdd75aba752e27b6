import SiteTree.Proofs.FileSystem.Straight
import SiteTree.Proofs.Walk.Beside

/-!
Places in a source tree that a walk keeps off because it passes over the entries that lead to them, and because no
link leads there.
-/

namespace SiteTree.Walk

open SiteTree.Action FileSystem EntryName SiteTree.Path

variable {I : Location → Prop} {limits : Limits} {source dest : Path} {loc y : Location} {G : Ground} {fs : FileSystem}
  {rel : List String} {name s : String} {n : Nat} {options : Options} {w w' : World} {entry : Entry}

/-- The places lie below entries that a walk of the source passes over, and links only lie below the places. -/
structure Fence (I : Location → Prop) (limits : Limits) (source : Path) (loc : Location) (G : Ground) : Prop where
  spells : source.Spells loc
  isName : ∀ s ∈ loc, IsName s
  below : ∀ x y, I x → I (x ++ y)
  outside : ¬ I loc
  passes : ∀ rel name, (∀ s ∈ rel ++ [name], IsName s) → ¬ I (loc ++ rel) → I (loc ++ rel ++ [name]) →
    (∃ fs, G.Holds fs ∧ (fs.at? (loc ++ rel ++ [name])).isSome) →
    limits.passes source ((source.descend rel).child name) = true
  links : ∀ y s target, y ++ [s] <+: loc ∨ loc <+: y → G.start.at? (y ++ [s]) = some (.link target) → I y

/-- The entries of a directory are what it lists. -/
theorem mem_listing {dir : Path} {entries : List Entry} (hl : listing options dir dest w = .ok entries w')
    (hmem : entry ∈ entries) : entry.path = dir.child entry.name ∧
      ∃ names, w.files.list w.cwd dir = .ok names ∧ entry.name ∈ names := by
  obtain ⟨u, w₁, hp, hentries⟩ := bind_eq_ok hl
  cases hp
  obtain ⟨names, w₂, hlist, hmap⟩ := bind_eq_ok hentries
  obtain ⟨rfl, hnames⟩ := look_ok hlist
  obtain ⟨-, hall⟩ := Asset.mapM_entryOf_ok hmap
  exact ⟨(hall entry hmem).1, names, hnames, (hall entry hmem).2⟩

/-- A file that is only copied, to a place inside a directory. -/
theorem emit_keeps_inside {base : List String} {root : Location} {fs₀ : FileSystem} {source target : Path}
    (hlinks : options.links = []) (hin : Inside base target) :
    Keeps (Confined base root fs₀) (emit options source target) := by
  intro w hw
  rw [after, emit_unlinked hlinks]
  by_cases hthere : w.files.pathExists w.cwd target = true
  · rw [if_pos hthere]
    exact hw
  · rw [if_neg hthere]
    exact copy_keeps hin source w hw

namespace Fence

variable (hf : Fence I limits source loc G)

include hf

section

variable (hG : G.Holds fs)

include hG

/-- What is in a directory off the places is no link, and nothing on the way to it is. -/
theorem not_link (hI : ¬ I (loc ++ rel)) (hy : y <+: loc ++ rel ++ [name]) (target : String) :
    fs.at? y ≠ some (.link target) := by
  intro hat
  obtain ⟨x, s, rfl⟩ := (List.eq_nil_or_concat' y).resolve_left (by rintro rfl; cases hat)
  have hstart : G.start.at? (x ++ [s]) = some (.link target) := by
    rw [← hG.within _ fun hc => hG.linkFree _ _ hc hat, hat]
  have hx : x <+: loc ++ rel := by
    obtain ⟨t, ht⟩ := hy
    rcases List.eq_nil_or_concat' t with rfl | ⟨t, u, rfl⟩
    · rw [List.append_nil] at ht
      exact (List.append_inj' ht rfl).1 ▸ List.prefix_rfl
    · rw [← List.append_assoc] at ht
      exact (List.prefix_append x ([s] ++ t)).trans (by rw [← List.append_assoc, (List.append_inj' ht rfl).1])
  have hside : x ++ [s] <+: loc ∨ loc <+: x := by
    have hloc : loc <+: loc ++ rel ++ [name] := by rw [List.append_assoc]; exact List.prefix_append _ _
    rcases List.prefix_or_prefix_of_prefix hy hloc with h | h
    · exact .inl h
    · rcases List.prefix_concat_iff.1 h with rfl | h
      · exact .inl List.prefix_rfl
      · exact .inr h
  obtain ⟨t, ht⟩ := hx
  exact hI (ht ▸ hf.below _ t (hf.links x s target hside hstart))

/-- The way to a place that is none of them avoids them. -/
theorem avoids (hrel : ∀ s ∈ rel, IsName s) (hI : ¬ I (loc ++ rel)) (cwd : Location) :
    Avoids I fs cwd (source.descend rel) := by
  refine avoids_unlinked (hf.spells.descend hrel) (fun s hs => ?_) (fun y target hy => ?_) (fun y hy hIy => ?_) cwd
  · rcases List.mem_append.1 hs with hs | hs
    · exact (hf.isName s hs).isStep
    · exact (hrel s hs).isStep
  · exact hf.not_link hG hI (hy.trans (List.prefix_append _ [""])) target
  · obtain ⟨t, ht⟩ := hy
    exact hI (ht ▸ hf.below y t hIy)

theorem leadsTo_of_list {cwd : Location} {names : List String} (hrel : ∀ s ∈ rel, IsName s) (hI : ¬ I (loc ++ rel))
    (hl : fs.list cwd (source.descend rel) = .ok names) :
    fs.LeadsTo cwd (source.descend rel) (loc ++ rel) ∧ names = fs.children (loc ++ rel) := by
  rw [list] at hl
  cases hfound : fs.found cwd (source.descend rel) with
  | error cause => rw [hfound] at hl; cases hl
  | ok there =>
      obtain ⟨x, node⟩ := there
      obtain rfl : x = loc ++ rel := by
        refine found_unlinked (hf.spells.descend hrel) (fun s hs => ?_) (fun y target hy => ?_) hfound
        · rcases List.mem_append.1 hs with hs | hs
          · exact (hf.isName s hs).isStep
          · exact (hrel s hs).isStep
        · exact hf.not_link hG hI (hy.trans (List.prefix_append _ [""])) target
      rw [hfound] at hl
      cases node with
      | file | link => cases hl
      | directory => cases hl; exact ⟨leadsTo_iff.2 hfound, rfl⟩

end

theorem lists (hG : G.Holds w.files) (hrel : ∀ s ∈ rel, IsName s) (hI : ¬ I (loc ++ rel)) :
    Lists I limits source w (source.descend rel) := by
  refine ⟨hf.avoids hG hrel hI w.cwd, fun names hnames name hmem => ?_⟩
  have hl : w.files.list w.cwd (source.descend rel) = .ok names := by
    cases hlist : w.files.list w.cwd (source.descend rel) with
    | error cause => rw [hlist] at hnames; cases hnames
    | ok names' => rw [hlist] at hnames; cases hnames; rfl
  obtain ⟨hleads, rfl⟩ := hf.leadsTo_of_list hG hrel hI hl
  have hsome := mem_children.1 hmem
  have hname := hG.wellFormed.isName hsome
  have hnames' : ∀ s ∈ rel ++ [name], IsName s := by simpa [or_imp, forall_and] using ⟨hrel, hname⟩
  rw [Heeds]
  split
  · obtain ⟨node, hnode⟩ := Option.isSome_iff_exists.1 hsome
    have hlink : node.isLink = false := by
      cases node with
      | link target => exact absurd hnode (hf.not_link hG hI List.prefix_rfl target)
      | file | directory => rfl
    rw [pathExists, hleads.found_child hname hnode hlink]
  · next hpass =>
    rw [← descend_append]
    refine hf.avoids hG hnames' (fun hc => hpass ?_) w.cwd
    exact hf.passes rel name hnames' hI (by rwa [List.append_assoc]) ⟨_, hG, hsome⟩

/-- An expansion that a walk comes to is that of an entry off the places. -/
theorem comes_off {dest : Path} {e : Expansion} (hG : G.Holds w.files) (hrel : ∀ s ∈ rel, IsName s) (hI : ¬ I (loc ++ rel))
    (hroot : options.sourceRoot = source) (hc : Comes limits n options (source.descend rel) dest w entry e w') :
    entry.path = source.descend (rel ++ [entry.name]) ∧ (∀ s ∈ rel ++ [entry.name], IsName s) ∧
      ¬ I (loc ++ (rel ++ [entry.name])) := by
  obtain ⟨entries, expansions, w₁, w₂, hl, ⟨before, rest, rfl, -⟩, hskip, hhides, -⟩ := hc
  obtain ⟨hpath, names, hnames, hmem⟩ := mem_listing hl (List.mem_append_right before List.mem_cons_self)
  obtain ⟨hleads, rfl⟩ := hf.leadsTo_of_list hG hrel hI hnames
  have hname := hG.wellFormed.isName (mem_children.1 hmem)
  have havoids := (hf.lists hG hrel hI).reached hnames hmem (by rw [Limits.passes, ← hpath, ← hroot, hskip, hhides]; rfl)
  refine ⟨by rw [hpath, descend_append], by simpa [or_imp, forall_and] using ⟨hrel, hname⟩, ?_⟩
  rw [← List.append_assoc]
  exact havoids _ (hleads.mem_wayTo_child hname)

/-- The induction is on the nesting that is left. What is made during the walk is below the ground, which has no
links either. -/
theorem clear (n : Nat) (hlinks : options.links = []) (hroot : options.sourceRoot = source) (hG : G.Holds w.files)
    (hrel : ∀ s ∈ rel, IsName s) (hI : ¬ I (loc ++ rel)) (hd : Below G.base dest)
    (honly : MeetsOnly IsName limits n options (source.descend rel) dest w) :
    Clear I limits n options (source.descend rel) dest w := by
  induction n generalizing options rel dest w with
  | zero => trivial
  | succ n ih =>
      refine ⟨hroot.symm ▸ hf.lists hG hrel hI, fun ⟨entry, e, w'⟩ hc => ?_⟩
      have hcomes := mem_comings.1 hc
      obtain ⟨hpath, hnames, hoff⟩ := hf.comes_off hG hrel hI hroot hcomes
      have hname := honly e (.own hcomes)
      have hchild : ∀ {dest : Path} {name : String}, Below G.base dest → IsName name → Below G.base (dest.child name) :=
        fun hd hs => (inside_child hd hs).below
      have hkept : G.Holds w'.files := by
        refine hcomes.keeps_only hchild (fun options source dest name hnone hd hs => ?_) hlinks hG hd honly
        exact emit_keeps_inside hnone (inside_child hd hs)
      dsimp only
      split
      · next hdir =>
        rw [hpath]
        exact ih hlinks hroot hkept hnames hoff (innerDest_fits hchild hd hname)
          (hpath ▸ fun e' hm => honly e' (.inner hcomes hdir hm))
      · intro hloop
        rw [hpath]
        exact hf.avoids (makeParent_keeps (inside_child hd (hname hloop)) w' hkept) hnames hoff _

theorem clear_root (n : Nat) (hlinks : options.links = []) (hroot : options.sourceRoot = source) (hG : G.Holds w.files)
    (hd : Below G.base dest) (honly : MeetsOnly IsName limits n options source dest w) :
    Clear I limits n options source dest w := by
  have hclear : Clear I limits n options (source.descend []) dest w :=
    hf.clear n hlinks hroot hG nofun (by simpa using hf.outside) hd honly
  exact hclear

end Fence

end SiteTree.Walk
