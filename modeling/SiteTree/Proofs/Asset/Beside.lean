import SiteTree.Proofs.Asset.Order
import SiteTree.Proofs.Walk.Beside

/-!
Both passes side by side, in directories of the same contents: they end alike, and rename the same files.
-/

namespace SiteTree

open Action FileSystem Path Asset

variable {P : Prop} {G G' : Ground} {I : Location → Prop} {w w' : World} {root root' : Path}

theorem Beside.region (h : Beside G G' I w w') (hp : root.Spells G.base) : Region root G.root w :=
  ⟨h.files.left.wellFormed, leadsTo_iff.2 (found_eq_ok.2 (h.files.left.resolve_self hp w.cwd true)),
    h.files.left.linkFree⟩

theorem Beside.region' (h : Beside G G' I w w') (hp : root'.Spells G'.base) : Region root' G'.root w' :=
  ⟨h.files.right.wellFormed, leadsTo_iff.2 (found_eq_ok.2 (h.files.right.resolve_self hp w'.cwd true)),
    h.files.right.linkFree⟩

namespace Asset

variable {loc : Location} {rel : List String} {n m : String} {bytes : ByteArray} {D : Location → Prop} {k k' : Nat}

/-- The directories that there are do not change, on either side. -/
structure Steady (G G' : Ground) (I : Location → Prop) (D : Location → Prop) (w w' : World) : Prop
    extends Beside G G' I w w' where
  dirs : ∀ x, w.files.at? (G.root ++ x) = some .directory ↔ D x

theorem Steady.dirs' (h : Steady G G' I D w w') (x : Location) :
    w'.files.at? (G'.root ++ x) = some .directory ↔ D x := by rw [h.files.mirrored, h.dirs]

theorem Steady.tells (h : Steady G G' I D w w') (events events' : List Event) :
    Steady G G' I D { w with events := events } { w' with events := events' } := ⟨h.toBeside.tells _ _, h.dirs⟩

theorem Region.readFile_eq (hr : Region root loc w) (hd : w.files.at? (loc ++ rel) = some .directory) (hn : IsName n) :
    w.files.readFile w.cwd ((root.descend rel).child n) = match w.files.at? (loc ++ rel ++ [n]) with
      | some (.file bytes) => .ok bytes
      | some _ => .error .isDirectory
      | none => .error .missing := by
  rw [readFile, found, (hr.leadsTo_descend hd).resolve_child hn (hr.not_link n) true, placeIn]
  rcases w.files.at? (loc ++ rel ++ [n]) with _ | (_ | _ | _) <;> rfl

/-- A file that gets another name stays in the directory. -/
theorem Region.holds_rename (hr : Region root G.root w) (hG : G.Holds w.files) (hroot : root.Spells G.base)
    (hd : w.files.at? (G.root ++ rel) = some .directory) (hn : IsName n) (hm : IsName m)
    (hat : w.files.at? (G.root ++ rel ++ [n]) = some (.file bytes)) {fs : FileSystem}
    (h : w.files.rename w.cwd ((root.descend rel).child n) (((root.descend rel).child n).withFileName m) = .ok fs) :
    G.Holds fs := by
  have hleads := hr.leadsTo_descend hd
  have hrel : ∀ s ∈ rel, IsName s := names_below hr.wellFormed (by rw [hd]; rfl)
  have hdir : Below G.base (root.descend rel) := ⟨rel, hrel, hroot.descend hrel⟩
  refine hG.rename (inside_child hdir hn).below ((inside_child hdir hn).withFileName hm).below (fun x node hl => ?_) h
  rw [hleads.locate_child hn, placeIn, hat] at hl
  cases hl
  exact ⟨bytes, rfl⟩

section

variable (h : Steady G G' I D w w') (hroot : root.Spells G.base) (hroot' : root'.Spells G'.base) (hd : D rel)
  (hn : IsName n)

include h hroot hroot' hd hn

theorem readFile_alike : Likewise Eq Eq (w.files.readFile w.cwd ((root.descend rel).child n))
    (w'.files.readFile w'.cwd ((root'.descend rel).child n)) := by
  rw [(h.region hroot).readFile_eq ((h.dirs rel).2 hd) hn, (h.region' hroot').readFile_eq ((h.dirs' rel).2 hd) hn,
    List.append_assoc, List.append_assoc, h.files.mirrored]
  rcases w.files.at? (G.root ++ (rel ++ [n])) with _ | (_ | _ | _)
  · exact .error rfl
  · exact .ok rfl
  · exact .error rfl
  · exact .error rfl

theorem rename_alike (hm : IsName m) (hne : m ≠ n) (hat : w.files.at? (G.root ++ (rel ++ [n])) = some (.file bytes)) :
    Likewise Eq (fun fs fs' => Twin G G' I fs fs' ∧ ∀ x, fs.at? (G.root ++ x) = some .directory ↔ D x)
      (w.files.rename w.cwd ((root.descend rel).child n) (((root.descend rel).child n).withFileName m))
      (w'.files.rename w'.cwd ((root'.descend rel).child n) (((root'.descend rel).child n).withFileName m)) := by
  have hr := h.region hroot
  have hr' := h.region' hroot'
  have hdir := (h.dirs rel).2 hd
  have hdir' := (h.dirs' rel).2 hd
  have hat' : w'.files.at? (G'.root ++ (rel ++ [n])) = some (.file bytes) := by rw [h.files.mirrored, hat]
  have hholds : ∀ {fs}, w.files.rename w.cwd ((root.descend rel).child n)
      (((root.descend rel).child n).withFileName m) = .ok fs → G.Holds fs :=
    hr.holds_rename h.files.left hroot hdir hn hm (by rwa [List.append_assoc])
  have hholds' : ∀ {fs}, w'.files.rename w'.cwd ((root'.descend rel).child n)
      (((root'.descend rel).child n).withFileName m) = .ok fs → G'.Holds fs :=
    hr'.holds_rename h.files.right hroot' hdir' hn hm (by rwa [List.append_assoc])
  rw [hr.rename_eq hdir hn hm hne (by rwa [List.append_assoc])] at hholds ⊢
  rw [hr'.rename_eq hdir' hn hm hne (by rwa [List.append_assoc])] at hholds' ⊢
  simp only [List.append_assoc] at hholds hholds' ⊢
  rw [h.files.mirrored] at hholds' ⊢
  split
  · exact .error rfl
  next hfree =>
  rw [if_neg hfree] at hholds hholds'
  have hneq : rel ++ [m] ≠ rel ++ [n] := by simpa using hne
  refine .ok ⟨h.files.move (hholds rfl) (hholds' rfl) hat hneq hfree, fun x => ?_⟩
  rw [h.files.left.wellFormed.at?_move_file hat (by simp) (by simpa using hne) hfree, ← h.dirs]
  split
  · next he =>
    rw [he]
    exact ⟨nofun, fun hc => absurd hc hfree⟩
  · split
    · next he =>
      rw [he, hat]
      exact ⟨nofun, nofun⟩
    · exact Iff.rfl

theorem stampFile_alike (hP : P → root = root') {b : Bool} : EndAlike P (Steady G G' I D) Eq
    (stampFile root ⟨n, (root.descend rel).child n, b⟩ w) (stampFile root' ⟨n, (root'.descend rel).child n, b⟩ w') := by
  have hr := h.region hroot
  have hr' := h.region' hroot'
  have hdir := (h.dirs rel).2 hd
  have hdir' := (h.dirs' rel).2 hd
  have hread := readFile_alike h hroot hroot' hd hn
  refine (look_alike hread (fun hP' => by rw [hP hP']) h).bind fun bytes _ w₁ w₁' hl hl' he _ => ?_
  subst he
  obtain ⟨rfl, hbytes⟩ := look_ok hl
  obtain ⟨rfl, -⟩ := look_ok hl'
  have hat := hr.at?_of_readFile hdir hn hbytes
  rw [List.append_assoc] at hat
  cases hs : stamp? n (fingerprint bytes) with
  | none => exact .ok rfl (h.tells _ _)
  | some m =>
      have hm := stamp?_isName hn (isHash_fingerprint bytes) hs
      have hmove := rename_alike h hroot hroot' hd hn hm (stamped_ne hn hs) hat
      refine (change_alike (T := Steady G G' I D) hmove (fun hP' => by rw [hP hP']) fun fs fs' hT =>
        ⟨⟨hT.1, h.cwd⟩, hT.2⟩).bind fun _ _ w₂ w₂' _ _ _ h₂ => ?_
      refine .ok ?_ (h₂.tells _ _)
      rw [hr.relativeName_child hdir hn, hr'.relativeName_child hdir' hn, hr.relativeName_sibling hdir hn hm,
        hr'.relativeName_sibling hdir' hn hm]
      simp only [List.append_assoc, addressOf_append]

end

/-- The induction is on the nesting that is left in both trees, of which there is enough. -/
theorem stampBelow_alike (k k' : Nat) (h : Steady G G' I D w w') (hroot : root.Spells G.base)
    (hroot' : root'.Spells G'.base) (hP : P → root = root') (hd : D rel) (hk : ∀ x, D (rel ++ x) → x.length < k)
    (hk' : ∀ x, D (rel ++ x) → x.length < k') : EndAlike P (Steady G G' I D) Eq
      (stampBelow root k (root.descend rel) w) (stampBelow root' k' (root'.descend rel) w') := by
  induction k generalizing k' rel w w' with
  | zero => exact absurd (hk [] (by rwa [List.append_nil])) (by simp)
  | succ k ih =>
      obtain ⟨k', rfl⟩ : ∃ j, k' = j + 1 := ⟨k' - 1, by have := hk' [] (by rwa [List.append_nil]); omega⟩
      have hr := h.region hroot
      have hr' := h.region' hroot'
      have hleads := hr.leadsTo_descend ((h.dirs rel).2 hd)
      have hleads' := hr'.leadsTo_descend ((h.dirs' rel).2 hd)
      have hmirrored : ∀ s, w'.files.at? (G'.root ++ rel ++ [s]) = w.files.at? (G.root ++ rel ++ [s]) := fun s => by
        rw [List.append_assoc, List.append_assoc, h.files.mirrored]
      have hchildren : w'.files.children (G'.root ++ rel) = w.files.children (G.root ++ rel) :=
        children_congr fun s => by rw [hmirrored]
      have hassets : assetsIn w'.files (G'.root ++ rel) = assetsIn w.files (G.root ++ rel) := by
        rw [assetsIn, assetsIn, hchildren]
        exact List.filter_congr fun s _ => by rw [shelfOf, shelfOf, hmirrored]
      rw [stampBelow, stampBelow, bind_ok (entriesOf_eq hr.wellFormed hleads hr.not_link),
        bind_ok (entriesOf_eq hr'.wellFormed hleads' hr'.not_link), filter_assets hr.wellFormed hleads.1 hr.not_link,
        filter_assets hr'.wellFormed hleads'.1 hr'.not_link, hassets, hchildren]
      have hdirs : EndAlike P (Steady G G' I D) Eq
          ((((w.files.children (G.root ++ rel)).map fun s => (⟨s, (root.descend rel).child s,
            isDirectoryAt w.files (G.root ++ rel ++ [s])⟩ : Entry)).filter (·.isDirectory)).mapM
              (fun e => stampBelow root k e.path) w)
          ((((w.files.children (G.root ++ rel)).map fun s => (⟨s, (root'.descend rel).child s,
            isDirectoryAt w'.files (G'.root ++ rel ++ [s])⟩ : Entry)).filter (·.isDirectory)).mapM
              (fun e => stampBelow root' k' e.path) w') := by
        simp only [List.filter_map, List.mapM_map, isDirectoryAt, Function.comp_def, hmirrored]
        refine mapM_alike (fun s hs w₁ w₁' h₁ => ?_) h
        have hin : D (rel ++ [s]) := by
          rw [← h.dirs, ← List.append_assoc]
          exact isDirectoryAt_iff.1 (List.mem_filter.1 hs).2
        rw [← descend_append, ← descend_append]
        refine ih k' h₁ hin (fun x hx => ?_) fun x hx => ?_
        · have := hk (s :: x) (by rwa [List.append_assoc] at hx)
          rw [List.length_cons] at this
          omega
        · have := hk' (s :: x) (by rwa [List.append_assoc] at hx)
          rw [List.length_cons] at this
          omega
      refine hdirs.bind fun lists _ w₁ w₁' _ _ he h₁ => ?_
      subst he
      have hfiles : EndAlike P (Steady G G' I D) Eq
          (((assetsIn w.files (G.root ++ rel)).map fun s => ⟨s, (root.descend rel).child s, false⟩).mapM
            (stampFile root) w₁)
          (((assetsIn w.files (G.root ++ rel)).map fun s => ⟨s, (root'.descend rel).child s, false⟩).mapM
            (stampFile root') w₁') := by
        rw [List.mapM_map, List.mapM_map]
        exact mapM_alike (fun s hs w₂ w₂' h₂ =>
          stampFile_alike h₂ hroot hroot' hd (isName_of_mem_assetsIn hr.wellFormed hs) hP) h₁
      refine hfiles.bind fun rs _ w₂ w₂' _ _ he h₂ => ?_
      subst he
      exact .ok rfl h₂

section

variable (h : Beside G G' I w w') (hroot : root.Spells G.base) (hroot' : root'.Spells G'.base)

include h hroot hroot'

theorem stampTree_alike (hP : P → root = root') :
    EndAlike P (Beside G G' I) Eq (stampTree root w) (stampTree root' w') := by
  have hsteady : Steady G G' I (fun x => w.files.at? (G.root ++ x) = some .directory) w w' := ⟨h, fun _ => Iff.rfl⟩
  have hdepth : ∀ {fs : FileSystem} {loc : Location}, fs.WellFormed → ∀ x, fs.at? (loc ++ x) = some .directory →
      x.length < fs.maxDepth := by
    intro fs loc hw x hx
    have hlen := withinDepth hw loc _ ⟨List.prefix_append loc x, hx⟩
    rw [List.length_append] at hlen
    omega
  rw [stampTree, stampTree, get_bind, get_bind]
  have hbelow : EndAlike P _ Eq (stampBelow root w.files.maxDepth (root.descend []) w)
      (stampBelow root' w'.files.maxDepth (root'.descend []) w') := stampBelow_alike _ _ hsteady hroot hroot' hP
    (by rw [List.append_nil]; exact h.files.left.directory) (hdepth h.files.left.wellFormed)
    fun x hx => hdepth h.files.right.wellFormed x ((hsteady.dirs' x).2 hx)
  refine hbelow.bind fun pairs _ w₁ w₁' _ _ he h₁ => ?_
  subst he
  exact .ok rfl h₁.toBeside

theorem redirectTree_alike (renames : Renames) :
    EndAlike P (Beside G G' I) (fun _ _ => True) (redirectTree root renames w) (redirectTree root' renames w') := by
  obtain ⟨w₁, hrun, hcwd, hred⟩ := Order.byName.redirectTree_runs (h.region hroot)
    (h.files.left.resolve_self hroot w.cwd false) renames
  obtain ⟨w₁', hrun', hcwd', hred'⟩ := Order.byName.redirectTree_runs (h.region' hroot')
    (h.files.right.resolve_self hroot' w'.cwd false) renames
  have hholds := redirectTree_keeps hroot renames w h.files.left
  have hholds' := redirectTree_keeps hroot' renames w' h.files.right
  rw [after_ok (show redirectTree root renames w = .ok () w₁ from hrun)] at hholds
  rw [after_ok (show redirectTree root' renames w' = .ok () w₁' from hrun')] at hholds'
  rw [show redirectTree root renames w = .ok () w₁ from hrun, show redirectTree root' renames w' = .ok () w₁' from hrun']
  refine .ok trivial ⟨h.files.change hholds hholds' (fun x => ?_) (fun x => ?_) fun x => ?_, by rw [hcwd, hcwd', h.cwd]⟩
  · exact or_iff_not_imp_right.2 (hred.kept x)
  · exact or_iff_not_imp_right.2 (hred'.kept x)
  · rw [hred.text _ (List.prefix_append _ _), hred'.text _ (List.prefix_append _ _), h.files.mirrored]

/-- Both passes end alike, and rename the same files. -/
theorem runPasses_alike (hP : P → root = root') :
    EndAlike P (Beside G G' I) Eq (runPasses root w) (runPasses root' w') := by
  refine (stampTree_alike h hroot hroot' hP).bind fun renames _ w₁ w₁' _ _ he h₁ => ?_
  subst he
  refine (redirectTree_alike h₁ hroot hroot' renames).bind fun _ _ w₂ w₂' _ _ _ h₂ => ?_
  exact .ok rfl h₂

end

end Asset

end SiteTree
