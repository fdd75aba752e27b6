import Mathlib.Data.List.Nodup
import SiteTree.Proofs.Asset.Lookup

/-!
The second pass rewrites every file below the root, each once, and nothing else.
-/

namespace SiteTree.Asset

open SiteTree.Action FileSystem SiteTree.Path Text

variable {fs fs' fs₁ fs₂ : FileSystem} {dir loc x y : Location} {root : Path} {name n : String}
  {rel : List String} {bytes : ByteArray} {Y Z : Location → Prop} {w w' : World} {k : Nat} {renames : Renames}

/-- The content of a file with its references replaced, if it is a text that has any. -/
def rewritten (renames : Renames) (bytes : ByteArray) : ByteArray :=
  match (String.fromUTF8? bytes).bind fun content => redirect? content renames with
  | some content => content.toUTF8
  | none => bytes

def rewriteNode (renames : Renames) : FileNode → FileNode
  | .file bytes => .file (rewritten renames bytes)
  | node => node

/-- The nodes at some locations are rewritten, and nothing else has changed. -/
structure Redirected (renames : Renames) (Y : Location → Prop) (fs fs' : FileSystem) : Prop where
  wellFormed : fs'.WellFormed
  text : ∀ x, Y x → fs'.at? x = (fs.at? x).map (rewriteNode renames)
  kept : ∀ x, ¬ Y x → fs'.at? x = fs.at? x

namespace Redirected

theorem at?_cases (h : Redirected renames Y fs fs') (x : Location) :
    fs'.at? x = fs.at? x ∨ ∃ bytes, fs.at? x = some (.file bytes) ∧
      fs'.at? x = some (.file (rewritten renames bytes)) := by
  by_cases hx : Y x
  · rw [h.text x hx]
    rcases fs.at? x with _ | (_ | _ | _)
    · exact .inl rfl
    · exact .inr ⟨_, rfl, rfl⟩
    · exact .inl rfl
    · exact .inl rfl
  · exact .inl (h.kept x hx)

theorem node (h : Redirected renames Y fs fs') {node : FileNode} (hn : ¬ node.IsFile) :
    fs'.at? x = some node ↔ fs.at? x = some node := by
  rcases h.at?_cases x with he | ⟨bytes, hb, hb'⟩
  · rw [he]
  · have hfile : ∀ b, some (FileNode.file b) ≠ some node := fun b hc => hn ⟨b, (Option.some.inj hc).symm⟩
    rw [hb, hb']
    exact iff_of_false (hfile _) (hfile _)

theorem directory (h : Redirected renames Y fs fs') : fs'.at? x = some .directory ↔ fs.at? x = some .directory :=
  h.node FileNode.not_isFile_directory

theorem region (h : Redirected renames Y w.files w'.files) (hc : w'.cwd = w.cwd) (hr : Region root loc w) :
    Region root loc w' := by
  refine ⟨h.wellFormed, ?_, fun x target hx hl => hr.linkFree x target hx ?_⟩
  · rw [hc]
    exact hr.leadsTo.mono fun x node hx hn => (h.node hn).2 hx
  · exact (h.node (FileNode.not_isFile_link target)).1 hl

end Redirected

theorem pieces_nil (s : List Char) : (pieces [] s).any Piece.isReference = false := by
  generalize hr : ([] : Renames) = renames
  fun_induction pieces renames s with
  | case1 => rfl
  | case2 c r hc body rest hq new hn => subst hr; cases hn
  | case3 c r hc body rest hq hn ih => simpa [Piece.isReference] using ih
  | case4 c r hc hq ih => simpa [Piece.isReference] using ih
  | case5 c r hc ih => simpa [Piece.isReference] using ih

theorem rewritten_nil (bytes : ByteArray) : rewritten [] bytes = bytes := by
  have hnone : ∀ content, redirect? content [] = none := fun content => by
    rw [redirect?, pieces_nil]
    rfl
  rw [rewritten]
  cases String.fromUTF8? bytes <;> simp [hnone]

/-- What is below a directory and no directory itself. -/
def leavesBelow (fs : FileSystem) (dir : Location) : Nat → List Location
  | 0 => []
  | n + 1 => (fs.children dir).flatMap fun name =>
    if isDirectoryAt fs (dir ++ [name]) then leavesBelow fs (dir ++ [name]) n else [dir ++ [name]]

theorem filesBelow_eq (fs : FileSystem) (root : Path) (loc rel : Location) (n : Nat) :
    filesBelow fs (loc ++ rel) (root.descend rel) n =
      (leavesBelow fs (loc ++ rel) n).map fun x => root.descend (x.drop loc.length) := by
  induction n generalizing rel with
  | zero => rfl
  | succ n ih =>
      rw [filesBelow, leavesBelow, List.map_flatMap]
      refine List.flatMap_congr fun s _ => ?_
      have hs := ih (rel ++ [s])
      rw [descend_append, ← List.append_assoc] at hs
      have hone : [(root.descend rel).child s] = [loc ++ rel ++ [s]].map fun x => root.descend (x.drop loc.length) := by
        simp
      rw [isDirectoryAt]
      dsimp only
      generalize fs.at? (loc ++ rel ++ [s]) = node
      rcases node with _ | (_ | _ | _)
      · exact hone
      · exact hone
      · exact hone
      · exact hs

theorem filesBelow_root (fs : FileSystem) (root : Path) (loc : Location) (n : Nat) :
    filesBelow fs loc root n = (leavesBelow fs loc n).map fun x => root.descend (x.drop loc.length) := by
  have heq := filesBelow_eq fs root loc [] n
  rwa [List.append_nil] at heq

theorem prefix_of_mem_leavesBelow (h : x ∈ leavesBelow fs dir k) : dir <+: x := by
  induction k generalizing dir with
  | zero => cases h
  | succ k ih =>
      obtain ⟨s, -, hx⟩ := List.mem_flatMap.1 h
      split at hx
      · exact (List.prefix_append _ _).trans (ih hx)
      · exact List.mem_singleton.1 hx ▸ List.prefix_append _ _

theorem nodup_leavesBelow (fs : FileSystem) (dir : Location) (k : Nat) : (leavesBelow fs dir k).Nodup := by
  induction k generalizing dir with
  | zero => exact List.nodup_nil
  | succ k ih =>
      have hpre : ∀ {s x}, (x ∈ if isDirectoryAt fs (dir ++ [s]) then leavesBelow fs (dir ++ [s]) k
          else [dir ++ [s]]) → dir ++ [s] <+: x := by
        intro s x hx
        split at hx
        · exact prefix_of_mem_leavesBelow hx
        · exact List.mem_singleton.1 hx ▸ List.prefix_rfl
      rw [leavesBelow, List.nodup_flatMap]
      refine ⟨fun s _ => ?_, (sorted_nodup (children_sorted fs dir)).imp fun {s t} hne x hs ht => ?_⟩
      · split
        · exact ih _
        · exact List.nodup_singleton _
      · exact hne (child_eq_of_isPrefix (hpre hs) (hpre ht))

/-- Something below a directory that is no directory itself. -/
def IsLeaf (fs : FileSystem) (dir x : Location) : Prop := dir <+: x ∧ ∃ node, fs.at? x = some node ∧ node ≠ .directory

theorem IsLeaf.spelled (h : IsLeaf fs loc x) (hd : fs.at? loc = some .directory) :
    ∃ rel n, x = loc ++ rel ++ [n] ∧ (fs.at? x).isSome := by
  obtain ⟨⟨l, rfl⟩, node, hnode, hne⟩ := h
  obtain ⟨rel, n, rfl⟩ := (List.eq_nil_or_concat' l).resolve_left fun hl => by
    rw [hl, List.append_nil, hd] at hnode
    exact hne (Option.some.inj hnode).symm
  exact ⟨rel, n, by simp, by rw [hnode]; rfl⟩

theorem mem_leavesBelow (h : fs.WellFormed) (hd : fs.at? dir = some .directory) (hdepth : WithinDepth fs dir k) :
    x ∈ leavesBelow fs dir k ↔ IsLeaf fs dir x := by
  induction k generalizing dir with
  | zero => exact absurd (hdepth dir ⟨List.prefix_rfl, hd⟩) (by simp)
  | succ k ih =>
      rw [leavesBelow, List.mem_flatMap]
      have hih : ∀ {s}, fs.at? (dir ++ [s]) = some .directory → (x ∈ leavesBelow fs (dir ++ [s]) k ↔
          IsLeaf fs (dir ++ [s]) x) := by
        intro s hs
        refine ih hs fun z hz => ?_
        have hlen := hdepth z ⟨(List.prefix_append _ _).trans hz.1, hz.2⟩
        rw [List.length_append, List.length_singleton]
        omega
      constructor
      · rintro ⟨s, hs, hx⟩
        obtain ⟨node, hnode⟩ := Option.isSome_iff_exists.1 (mem_children.1 hs)
        split at hx
        · next hsub =>
          obtain ⟨hp, hx⟩ := (hih (isDirectoryAt_iff.1 hsub)).1 hx
          exact ⟨(List.prefix_append _ _).trans hp, hx⟩
        · next hsub =>
          obtain rfl := List.mem_singleton.1 hx
          exact ⟨List.prefix_append _ _, node, hnode, fun he => hsub (isDirectoryAt_iff.2 (he ▸ hnode))⟩
      · rintro ⟨⟨l, rfl⟩, node, hnode, hne⟩
        cases l with
        | nil => rw [List.append_nil, hd] at hnode; cases hnode; exact absurd rfl hne
        | cons s l =>
            have he : dir ++ s :: l = dir ++ [s] ++ l := by simp
            rw [he] at hnode ⊢
            have hsome : (fs.at? (dir ++ [s])).isSome := h.isSome_above (by rw [hnode]; rfl)
            refine ⟨s, mem_children.2 hsome, ?_⟩
            split
            · next hsub =>
              rw [he] at hih
              exact (hih (isDirectoryAt_iff.1 hsub)).2 ⟨List.prefix_append _ _, node, hnode, hne⟩
            · next hsub =>
              by_cases hl : l = []
              · simp [hl]
              · exact absurd (isDirectoryAt_iff.2 (h.above hl (by rw [hnode]; rfl))) hsub

namespace Redirected

theorem refl (h : fs.WellFormed) (renames : Renames) : Redirected renames (fun _ => False) fs fs :=
  ⟨h, nofun, fun _ _ => rfl⟩

theorem congr (h : Redirected renames Y fs fs') (hYZ : ∀ x, Y x ↔ Z x) : Redirected renames Z fs fs' := by
  obtain rfl : Y = Z := funext fun x => propext (hYZ x)
  exact h

theorem union (h : Redirected renames Y fs fs₁) (h' : Redirected renames Z fs₁ fs₂) (hYZ : ∀ x, Y x → ¬ Z x) :
    Redirected renames (fun x => Y x ∨ Z x) fs fs₂ := by
  refine ⟨h'.wellFormed, ?_, fun x hx => ?_⟩
  · rintro x (hY | hZ)
    · rw [h'.kept x (hYZ x hY), h.text x hY]
    · rw [h'.text x hZ, h.kept x fun hY => hYZ x hY hZ]
  · rw [h'.kept x fun hZ => hx (.inr hZ), h.kept x fun hY => hx (.inl hY)]

end Redirected

theorem Region.congr (hr : Region root loc w) (hf : w'.files = w.files) (hc : w'.cwd = w.cwd) : Region root loc w' :=
  ⟨hf ▸ hr.wellFormed, by rw [hf, hc]; exact hr.leadsTo, hf ▸ hr.linkFree⟩

theorem Region.writeBytes_ok (hr : Region root loc w) (hd : w.files.at? (loc ++ rel) = some .directory) (hn : IsName n)
    {old : ByteArray} (hat : w.files.at? (loc ++ rel ++ [n]) = some (.file old)) {u : Unit}
    (h : writeBytes ((root.descend rel).child n) bytes w = .ok u w') :
    w'.cwd = w.cwd ∧ w'.files = w.files.put (loc ++ rel ++ [n]) (.file bytes) := by
  have hleads := hr.leadsTo_descend hd
  obtain ⟨fs', hfs', rfl⟩ := change_ok h
  obtain ⟨place, hp, rfl, -⟩ := write_ok (isOpen_child hn hleads.1) hfs'
  rw [hleads.resolve_child hn (hr.not_link n), placeIn, hat] at hp
  cases hp
  exact ⟨rfl, rfl⟩

theorem redirectFile_ok (hr : Region root loc w) (hd : w.files.at? (loc ++ rel) = some .directory) (hn : IsName n)
    {u : Unit} (h : redirectFile renames ((root.descend rel).child n) w = .ok u w') :
    w'.cwd = w.cwd ∧ Redirected renames (· = loc ++ rel ++ [n]) w.files w'.files := by
  have hw := hr.wellFormed
  obtain ⟨bytes, w₁, hread, hrest⟩ := bind_eq_ok h
  obtain ⟨rfl, hbytes⟩ := look_ok hread
  have hat := hr.at?_of_readFile hd hn hbytes
  have hne : w₁.files.at? (loc ++ rel ++ [n]) ≠ some .directory := by rw [hat]; nofun
  cases hc : (String.fromUTF8? bytes).bind fun content => redirect? content renames with
  | none =>
      rw [hc] at hrest
      cases hrest
      refine ⟨rfl, hw, ?_, fun _ _ => rfl⟩
      rintro x rfl
      rw [hat, Option.map_some, rewriteNode, rewritten, hc]
  | some content =>
      rw [hc] at hrest
      obtain ⟨_, w₂, hdebug, hwrite⟩ := bind_eq_ok hrest
      obtain ⟨hf, hc'⟩ : w₂.files = w₁.files ∧ w₂.cwd = w₁.cwd := by
        cases hdebug
        exact ⟨rfl, rfl⟩
      rw [← hf] at hd hat hne hw ⊢
      obtain ⟨hcwd, hfiles⟩ := (hr.congr hf hc').writeBytes_ok hd hn hat hwrite
      rw [hc'] at hcwd
      refine ⟨hcwd, ?_, ?_, fun x hx => ?_⟩
      · rw [hfiles]
        exact hw.put hd hn
      · rintro x rfl
        rw [hfiles, at?_put_self _ _ (by simp), hat, Option.map_some, rewriteNode, rewritten, hc]
      · rw [hfiles, hw.at?_put hne hx]

/-- Every file of a list without repetition is rewritten. -/
theorem redirectFiles_ok {xs : List Location} (hr : Region root loc w) (hdup : xs.Nodup)
    (hxs : ∀ x ∈ xs, ∃ rel n, x = loc ++ rel ++ [n] ∧ (w.files.at? x).isSome) {u : Unit}
    (h : (xs.map fun x => root.descend (x.drop loc.length)).forM (redirectFile renames) w = .ok u w') :
    w'.cwd = w.cwd ∧ Redirected renames (· ∈ xs) w.files w'.files := by
  induction xs generalizing w with
  | nil =>
      cases h
      exact ⟨rfl, (Redirected.refl hr.wellFormed renames).congr fun x => by simp⟩
  | cons x xs ih =>
      obtain ⟨hx, hdup'⟩ := List.nodup_cons.1 hdup
      obtain ⟨rel, n, rfl, hsome⟩ := hxs x (by simp)
      obtain ⟨u, w₁, hone, hall⟩ := bind_eq_ok (a := redirectFile renames _) h
      have hpath : root.descend ((loc ++ rel ++ [n]).drop loc.length) = (root.descend rel).child n := by simp
      replace hone : redirectFile renames ((root.descend rel).child n) w = .ok u w₁ := by
        rw [← hpath]
        exact hone
      obtain ⟨hcwd, hred⟩ := redirectFile_ok hr (hr.wellFormed.parent hsome) (hr.wellFormed.isName hsome) hone
      have hxs' : ∀ y ∈ xs, ∃ rel n, y = loc ++ rel ++ [n] ∧ (w₁.files.at? y).isSome := by
        intro y hy
        obtain ⟨rel', n', hye, hys⟩ := hxs y (List.mem_cons_of_mem _ hy)
        rw [← hred.kept y fun he => hx (he ▸ hy)] at hys
        exact ⟨rel', n', hye, hys⟩
      obtain ⟨hcwd', hred'⟩ := ih (hred.region hcwd hr) hdup' hxs' hall
      refine ⟨hcwd'.trans hcwd, (hred.union hred' fun y hy hys => hx (hy ▸ hys)).congr fun y => ?_⟩
      rw [List.mem_cons]

/-- Only what is no directory can be rewritten, so to rewrite all of it is to rewrite all that is there. -/
theorem Redirected.of_leaves {xs : List Location} (h : Redirected renames (· ∈ xs) fs fs')
    (hxs : ∀ x, x ∈ xs ↔ IsLeaf fs loc x) : Redirected renames (loc <+: ·) fs fs' := by
  refine ⟨h.wellFormed, fun x hx => ?_, fun x hx => h.kept x fun hc => hx ((hxs x).1 hc).1⟩
  by_cases hleaf : x ∈ xs
  · exact h.text x hleaf
  · rw [h.kept x hleaf]
    rw [hxs] at hleaf
    cases hnode : fs.at? x with
    | none => rfl
    | some node =>
        have hdir : node = .directory := by
          by_contra hne
          exact hleaf ⟨hx, node, hnode, hne⟩
        rw [hdir]
        rfl

theorem Redirected.of_nil (h : fs.WellFormed) (Y : Location → Prop) : Redirected [] Y fs fs := by
  have hnode : ∀ node, rewriteNode [] node = node := fun node => by
    cases node with
    | file bytes => rw [rewriteNode, rewritten_nil]
    | link | directory => rfl
  refine ⟨h, fun x _ => ?_, fun _ _ => rfl⟩
  cases fs.at? x <;> simp [hnode]

/-- The root is a directory, so a list that holds the root itself is of no use. -/
theorem textCandidates_ok (hr : Region root loc w) {paths : List Path} (h : textCandidates root w = .ok paths w') :
    w' = w ∧ (paths = filesBelow w.files loc root w.files.maxDepth ∨ paths = [root]) := by
  obtain ⟨place, w₁, hlook, hrest⟩ := bind_eq_ok h
  obtain ⟨rfl, hplace⟩ := look_ok hlook
  rw [get_bind] at hrest
  cases place with
  | vacant parent name slashed => cases hrest
  | found loc' node =>
      cases node with
      | file bytes => cases hrest; exact ⟨rfl, .inr rfl⟩
      | link target =>
          obtain ⟨v, w₂, hfound, hlast⟩ := bind_eq_ok hrest
          obtain ⟨rfl, -⟩ := look_ok hfound
          cases hlast
          exact ⟨rfl, .inr rfl⟩
      | directory =>
          cases hrest
          refine ⟨rfl, .inl ?_⟩
          have he := (found_of_resolve hplace).symm.trans (leadsTo_iff.1 hr.leadsTo)
          cases he
          rfl

theorem readBytes_root (hr : Region root loc w) {bytes : ByteArray} : readBytes root w ≠ .ok bytes w' := by
  intro h
  obtain ⟨-, hread⟩ := look_ok h
  obtain ⟨loc', hl⟩ := readFile_ok hread
  have hfound := found_eq_ok.1 (leadsTo_iff.1 hr.leadsTo)
  rw [hl] at hfound
  cases hfound

theorem redirectTree_ok (hr : Region root loc w) {u : Unit} (h : redirectTree root renames w = .ok u w') :
    w'.cwd = w.cwd ∧ Redirected renames (loc <+: ·) w.files w'.files := by
  rw [redirectTree] at h
  split at h
  · next he =>
    cases h
    rw [List.isEmpty_iff.1 he]
    exact ⟨rfl, .of_nil hr.wellFormed _⟩
  obtain ⟨paths, w₁, hpaths, hall⟩ := bind_eq_ok h
  obtain ⟨rfl, rfl | rfl⟩ := textCandidates_ok hr hpaths
  · have hd := hr.leadsTo.directory
    have hmem := fun x => mem_leavesBelow (x := x) hr.wellFormed hd (withinDepth hr.wellFormed loc)
    rw [filesBelow_root] at hall
    obtain ⟨hcwd, hred⟩ := redirectFiles_ok hr (nodup_leavesBelow _ _ _)
      (fun x hx => ((hmem x).1 hx).spelled hd) hall
    exact ⟨hcwd, hred.of_leaves hmem⟩
  · obtain ⟨u, w₂, hone, -⟩ := bind_eq_ok (a := redirectFile renames root) hall
    obtain ⟨bytes, w₃, hread, -⟩ := bind_eq_ok hone
    exact absurd hread (readBytes_root hr)

/-- Both passes: the assets get their new names, and then all files are rewritten. -/
theorem runPasses_ok (hr : Region root loc w) (h : runPasses root w = .ok renames w') : ∃ pairs w₁,
    renames = Table.ofPairs pairs ∧ stampTree root w = .ok renames w₁ ∧ w'.cwd = w.cwd ∧
      Stamped loc (DirsBelow w.files loc) w.files w₁.files pairs ∧
      Redirected renames (loc <+: ·) w₁.files w'.files := by
  obtain ⟨renames', w₁, hstamp, hrest⟩ := bind_eq_ok h
  obtain ⟨u, w₂, hredirect, hrest⟩ := bind_eq_ok hrest
  cases hrest
  obtain ⟨pairs, hpairs, hcwd, hst⟩ := stampTree_ok hr hstamp
  obtain ⟨hcwd', hred⟩ := redirectTree_ok (hr.restocked hcwd hst.toRestocked) hredirect
  exact ⟨pairs, w₁, hpairs, hstamp, hcwd'.trans hcwd, hst, hred⟩

end SiteTree.Asset
