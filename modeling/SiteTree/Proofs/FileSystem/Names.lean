import Mathlib.Data.List.Nodup
import Mathlib.Data.List.Perm.Subperm
import SiteTree.Proofs.FileSystem.Descent

/-!
The location of a directory as a list of stretches: its own names lead to it.
-/

namespace SiteTree.FileSystem

open SiteTree.Path

variable {fs fs' : FileSystem} {follow : Bool} {n : Nat} {cur loc dir x : Location} {l rel : List String}
  {node : FileNode} {p : Path}

theorem WellFormed.isName_of_mem (h : fs.WellFormed) (hx : (fs.at? x).isSome) : ∀ s ∈ x, IsName s := by
  induction x using List.reverseRecOn with
  | nil => nofun
  | append_singleton x s ih =>
      intro t ht
      rcases List.mem_append.1 ht with ht | ht
      · exact ih (by rw [h.parent hx]; rfl) t ht
      · exact List.mem_singleton.1 ht ▸ h.isName hx

theorem names_below (h : fs.WellFormed) (hx : (fs.at? (loc ++ rel)).isSome) : ∀ s ∈ rel, IsName s :=
  fun s hs => h.isName_of_mem hx s (List.mem_append_right loc hs)

theorem leads_self (hs : ∀ s ∈ x, IsStep s)
    (hd : ∀ y, y <+: cur ++ x → y ≠ cur ++ x → fs.at? y = some .directory)
    (hx : fs.at? (cur ++ x) = some node) (hlink : ∀ target, node ≠ .link target) :
    fs.Leads follow (n + 1) cur x (.found (cur ++ x) node) := by
  induction x generalizing cur with
  | nil =>
      rw [List.append_nil] at hx ⊢
      exact .stop hx
  | cons s x ih =>
      have happ : cur ++ s :: x = cur ++ [s] ++ x := by simp
      have hcur : fs.at? cur = some .directory := hd cur (List.prefix_append _ _) (by simp)
      rw [happ] at hd hx ⊢
      have hrest := ih (fun t ht => hs t (List.mem_cons_of_mem _ ht)) hd hx
      by_cases hnil : x = []
      · subst hnil
        rw [List.append_nil] at hx
        exact .enter hcur (hs s (by simp)) hx hlink hrest
      · exact .enter hcur (hs s (by simp)) (hd _ (List.prefix_append _ _) (by simp [hnil])) nofun hrest

/-- Something that is no link is found by the names that lead down to it. -/
theorem WellFormed.leads_down (h : fs.WellFormed) (hx : fs.at? (loc ++ rel) = some node)
    (hlink : ∀ target, node ≠ .link target) : fs.Leads follow (n + 1) loc rel (.found (loc ++ rel) node) := by
  have hsome : (fs.at? (loc ++ rel)).isSome := by rw [hx]; rfl
  refine leads_self (fun s hs => (names_below h hsome s hs).isStep) ?_ hx hlink
  rintro y ⟨r, hr⟩ hne
  have hne' : r ≠ [] := by
    rintro rfl
    exact hne (by simpa using hr)
  exact h.above hne' (by rwa [hr])

theorem reaches_self (hs : ∀ s ∈ x, IsStep s) (hd : ∀ y, y <+: x → fs.at? y = some .directory) :
    fs.Reaches x x :=
  leads_self hs (fun y hy _ => hd y hy) (hd x List.prefix_rfl) nofun

/-- Each location on the way to something is an entry of its own. -/
theorem WellFormed.length_le (h : fs.WellFormed) (hx : (fs.at? x).isSome) : x.length ≤ fs.entries.length := by
  have hnodup : ((List.range x.length).map fun i => x.take (i + 1)).Nodup := by
    refine List.nodup_range.map_on fun i hi j hj he => ?_
    have hlen := congrArg List.length he
    rw [List.length_take, List.length_take] at hlen
    rw [List.mem_range] at hi hj
    omega
  have hsub : ((List.range x.length).map fun i => x.take (i + 1)) ⊆ fs.entries.map Prod.fst := by
    intro y hy
    obtain ⟨i, hi, rfl⟩ := List.mem_map.1 hy
    rw [List.mem_range] at hi
    have hsome : (fs.at? (x.take (i + 1))).isSome :=
      h.isSome_above (l := x.drop (i + 1)) (by rwa [List.take_append_drop])
    have hne : x.take (i + 1) ≠ [] := by
      intro he
      have hlen := congrArg List.length he
      rw [List.length_take, List.length_nil] at hlen
      omega
    obtain ⟨e, he, hloc⟩ := mem_of_at?_isSome hne hsome
    exact hloc ▸ List.mem_map_of_mem he
  have hlen := (List.subperm_of_subset hnodup hsub).length_le
  rwa [List.length_map, List.length_range, List.length_map] at hlen

theorem WellFormed.directory_above (h : fs.WellFormed) (hx : fs.at? x = some .directory) {y : Location}
    (hy : y <+: x) : fs.at? y = some .directory := by
  obtain ⟨l, rfl⟩ := hy
  by_cases hl : l = []
  · simpa [hl] using hx
  · exact h.above hl (by rw [hx]; rfl)

theorem WellFormed.reaches_of_same (h : fs.WellFormed) (hx : fs.at? x = some .directory)
    (hsame : ∀ y, y <+: x → fs'.at? y = fs.at? y) : fs'.Reaches x x :=
  reaches_self (fun t ht => (h.isName_of_mem (by rw [hx]; rfl) t ht).isStep)
    fun y hy => (hsame y hy).trans (h.directory_above hx hy)

theorem WellFormed.reaches_self (h : fs.WellFormed) (hx : fs.at? x = some .directory) : fs.Reaches x x :=
  h.reaches_of_same hx fun _ _ => rfl

/-- A path that spells the location of a directory leads to it. -/
theorem leadsTo_of_spells (h : fs.WellFormed) (hp : p.Spells x) (hx : fs.at? x = some .directory)
    (cwd : Location) :
    fs.LeadsTo cwd p x := leadsTo_iff.2 (found_eq_ok.2 ((h.reaches_self hx).resolve hp cwd))

theorem WellFormed.directory_of_reaches (h : fs.WellFormed) (hat : fs.at? loc = some node)
    (hlink : ∀ target, node ≠ .link target) (hr : fs.Reaches loc dir) : node = .directory ∧ dir = loc := by
  have hself : fs.Leads true (maxLinks + 1) [] loc (.found loc node) := h.leads_down hat hlink
  have he := hself.walk_eq.symm.trans hr.walk_eq
  cases he
  exact ⟨rfl, rfl⟩

/-- A way with a stretch begins in a directory. -/
theorem Leads.begins {p : Place} (h : fs.Leads follow n cur l p) (hl : l ≠ []) : fs.at? cur = some .directory := by
  cases h with
  | stop => exact absurd rfl hl
  | skip h | up h | vacant h | slashed h | stay h | jump h | enter h => exact h

theorem Leads.not_link (h : fs.Leads true n cur l (.found loc node)) (hw : fs.WellFormed)
    (hcur : ∀ target, fs.at? cur ≠ some (.link target)) : ∀ target, node ≠ .link target := by
  generalize hp : Place.found loc node = p at h
  have hdir : ∀ {x}, fs.at? x = some .directory → ∀ target, fs.at? x ≠ some (.link target) := by
    rintro x hx target hl
    rw [hx] at hl
    cases hl
  induction h with
  | @stop n cur node h =>
      cases hp
      rintro target rfl
      exact hcur target h
  | skip _ _ _ ih => exact ih hcur hp
  | up h _ ih => exact ih (hdir (hw.directory_above h (List.dropLast_prefix _))) hp
  | vacant | slashed => cases hp
  | stay _ _ _ hf => cases hf
  | jump h _ _ _ _ ih =>
      refine ih ?_ hp
      rw [startOf]
      split
      · exact hdir rfl
      · exact hdir h
  | enter _ _ hn hlink _ ih =>
      exact ih (fun target hl => hlink target (Option.some.inj (hn.symm.trans hl))) hp

end SiteTree.FileSystem
