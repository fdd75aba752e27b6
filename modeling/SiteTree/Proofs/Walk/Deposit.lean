import SiteTree.Proofs.FileSystem.Downward
import SiteTree.Proofs.Walk.Taken

/-!
What becomes of a file that no link takes, by what is at its target: it is left out, it is copied below directories that
are made as needed, or a file in the way of these keeps it from being copied.
-/

namespace SiteTree

open SiteTree.Action FileSystem SiteTree.Path

variable {options : Options} {source dest : Path} {w : World} {top loc x : Location} {l names : List String} {s : String}
  {bytes old : ByteArray} {fs fs' : FileSystem}

/-- A file has come to a place, below directories that were made as needed. -/
structure FileSystem.Deposited (x : Location) (bytes : ByteArray) (fs fs' : FileSystem) : Prop where
  wellFormed : fs'.WellFormed
  at?_eq : ∀ y, fs'.at? y = if y = x then some (.file bytes) else if y <+: x then some .directory else fs.at? y

/-- A path that spells a place where nothing is, and where a directory can be made. -/
structure FileSystem.Vacates (fs : FileSystem) (p : Path) (x : Location) : Prop where
  spells : p.Spells x
  names : ∀ s ∈ x, IsName s
  openTo : fs.OpenTo x
  nothing : fs.at? x = none

/-- Why the levels down to a place cannot be made if there is a file on the way: it is in the place, or above it. -/
def FileSystem.obstacle (fs : FileSystem) (x : Location) : Cause := if (fs.at? x).isSome then .taken else .notDirectory

/-- If not all that is on the way down from a directory without links is a directory, there is a file. -/
theorem FileSystem.exists_file_above (hw : fs.WellFormed) (hfree : fs.LinkFree top) (hd : fs.at? top = some .directory)
    (ho : ¬ fs.OpenTo (top ++ l)) : ∃ k old, k <+: l ∧ fs.at? (top ++ k) = some (.file old) := by
  obtain ⟨y, node, hy, hat, hnot⟩ := exists_of_not_openTo ho
  rcases List.prefix_or_prefix_of_prefix hy (List.prefix_append top l) with hyt | ⟨k, rfl⟩
  · exact absurd (Option.some.inj (hat.symm.trans (hw.directory_above hd hyt))) hnot
  · cases node with
    | file old => exact ⟨k, old, (List.prefix_append_right_inj top).1 hy, hat⟩
    | link target => exact absurd hat (hfree _ target (List.prefix_append top k))
    | directory => exact absurd rfl hnot

namespace Walk

/-- What comes of a file that is to go below a directory: it is left out if there is something in its place, it is
copied, or it is refused because of a file on the way. -/
inductive Delivers (dest : Path) (top : Location) (names : List String) (bytes : ByteArray) (fs : FileSystem) :
    Option Failure → FileSystem → Prop
  | kept (hsome : (fs.at? (top ++ names)).isSome) : Delivers dest top names bytes fs none fs
  | copied {fs' : FileSystem} (hnil : names ≠ []) (hnone : fs.at? (top ++ names) = none)
      (ho : fs.OpenTo (top ++ names.dropLast)) (h : Deposited (top ++ names) bytes fs fs') :
      Delivers dest top names bytes fs none fs'
  | refused (hnone : fs.at? (top ++ names) = none) (ho : ¬ fs.OpenTo (top ++ names.dropLast)) :
      Delivers dest top names bytes fs
        (some (.write (dest.descend names.dropLast) (obstacle fs (top ++ names.dropLast)))) fs

namespace Delivers

variable {outcome : Option Failure}

theorem wellFormed (h : Delivers dest top names bytes fs outcome fs') (hw : fs.WellFormed) : fs'.WellFormed := by
  cases h with
  | kept | refused => exact hw
  | copied _ _ _ h => exact h.wellFormed

theorem isSome_at? (h : Delivers dest top names bytes fs none fs') : (fs'.at? (top ++ names)).isSome := by
  cases h with
  | kept hsome => exact hsome
  | copied _ _ _ h =>
      rw [h.at?_eq, if_pos rfl]
      rfl

/-- All that is new has come below the directory, or it is a level of its own, where nothing was. -/
theorem at?_cases (h : Delivers dest top names bytes fs outcome fs') (y : Location) : fs'.at? y = fs.at? y ∨
    fs.at? y = none ∧ (top <+: y ∨ y <+: top) ∧ (fs'.at? y).isSome ∧ ∀ target, fs'.at? y ≠ some (.link target) := by
  cases h with
  | kept | refused => exact .inl rfl
  | copied hnil hnone ho h =>
      rw [h.at?_eq]
      by_cases hy : y = top ++ names
      · rw [if_pos hy]
        exact .inr ⟨by rw [hy, hnone], .inl (by rw [hy]; exact List.prefix_append _ _), rfl, nofun⟩
      by_cases hpre : y <+: top ++ names
      · rw [if_neg hy, if_pos hpre]
        have habove : y <+: top ++ names.dropLast := by
          rw [← List.dropLast_append_getLast hnil, ← List.append_assoc, List.prefix_concat_iff, List.append_assoc,
            List.dropLast_append_getLast] at hpre
          exact hpre.resolve_left hy
        rcases ho y habove with hy' | hy'
        · exact .inr ⟨hy', List.prefix_or_prefix_of_prefix (List.prefix_append top names) hpre, rfl, nofun⟩
        · exact .inl hy'.symm
      · rw [if_neg hy, if_neg hpre]
        exact .inl rfl

theorem extension (h : Delivers dest top names bytes fs outcome fs') : fs.Extends fs' := by
  intro y node hy
  rcases h.at?_cases y with he | ⟨hnone, -⟩
  · rw [he, hy]
  · cases hy.symm.trans hnone

end Delivers

section

variable (hlinks : options.links = [])

include hlinks

/-- Once the levels above the target are there, the file is copied into the last of them. -/
theorem emit_made {fs₁ : FileSystem} (hs : IsName s) (hthere : w.files.pathExists w.cwd (dest.descend (l ++ [s])) = false)
    (hparent : makeParent (dest.descend (l ++ [s])) w = .ok () { w with files := fs₁ }) (hw₁ : fs₁.WellFormed)
    (hat : ∀ y, fs₁.at? y = if y <+: top ++ l then some .directory else w.files.at? y) (ho : w.files.OpenTo (top ++ l))
    (hleads : fs₁.LeadsTo w.cwd (dest.descend l) (top ++ l)) (hnone : w.files.at? (top ++ (l ++ [s])) = none)
    (hsource : w.files.found w.cwd source = .ok (loc, .file bytes)) : ∃ fs events,
      emit options source (dest.descend (l ++ [s])) w = .ok () { w with files := fs, events := events } ∧
        Deposited (top ++ (l ++ [s])) bytes w.files fs := by
  rw [← List.append_assoc] at hnone ⊢
  obtain ⟨fs₂, hcopy, hw₂, hat₂⟩ := hleads.copy_child hs hw₁
    (by rw [hat, if_neg not_append_isPrefix, hnone]) (found_extended hsource (ho.extension hat))
  refine ⟨fs₂, .record .debug .walk ("Copying file: " ++ (dest.descend (l ++ [s])).text) :: w.events, ?_, hw₂,
    fun y => ?_⟩
  · rw [emit_unlinked hlinks, hthere, if_neg Bool.false_ne_true, Action.copy, bind_ok hparent]
    show change (fun fs cwd => fs.copy cwd source (dest.descend (l ++ [s]))) _ { w with files := fs₁, events := _ } = _
    rw [change_eq]
    dsimp only
    rw [descend_append, hcopy]
  · rw [hat₂, hat]
    split
    · rfl
    · next hy => simp only [List.prefix_concat_iff, or_iff_right hy]

end

section

variable (hw : w.files.WellFormed) (hleads : w.files.LeadsTo w.cwd dest top) (hfree : w.files.LinkFree top)
  (hlinks : options.links = [])

include hw hleads hfree hlinks

section

variable (hn : ∀ t ∈ l ++ [s], IsName t)

include hn

theorem emit_there (hsome : (w.files.at? (top ++ (l ++ [s]))).isSome) :
    ∃ events, emit options source (dest.descend (l ++ [s])) w = .ok () { w with events := events } := by
  rw [emit_unlinked hlinks, pathExists_descend hw hleads hfree hn (by simp), if_pos hsome]
  exact ⟨_, rfl⟩

theorem emit_absent (hnone : w.files.at? (top ++ (l ++ [s])) = none) :
    emit options source (dest.descend (l ++ [s])) w = copy source (dest.descend (l ++ [s])) w := by
  rw [emit_unlinked hlinks, pathExists_descend hw hleads hfree hn (by simp), hnone, if_neg (by simp)]

/-- If there is nothing at the target and no file on the way to it, the file is copied. -/
theorem emit_deposits (hnone : w.files.at? (top ++ (l ++ [s])) = none) (ho : w.files.OpenTo (top ++ l))
    (hsource : w.files.found w.cwd source = .ok (loc, .file bytes)) : ∃ fs events,
      emit options source (dest.descend (l ++ [s])) w = .ok () { w with files := fs, events := events } ∧
        Deposited (top ++ (l ++ [s])) bytes w.files fs := by
  have hl : ∀ t ∈ l, IsName t := fun t ht => hn t (List.mem_append_left _ ht)
  have hlen : l.length < (if l = [] then dest.trimmed else dest.descend l).components.length + 2 := by
    split
    · next hnil => rw [hnil, List.length_nil]; omega
    · have hle := length_le_components hleads.1 hl
      omega
  obtain ⟨fs₁, hmake, hw₁, hat⟩ := makeLevels_down hw hleads hl ho hlen
  have hparent : makeParent (dest.descend (l ++ [s])) w = .ok () { w with files := fs₁ } := by
    rw [makeParent, parent?_descend hleads.1 hn]
    exact makeDirectories_made hmake
  have hleads₁ : fs₁.LeadsTo w.cwd (dest.descend l) (top ++ l) :=
    (leadsTo_iff.2 (found_extended (leadsTo_iff.1 hleads) (ho.extension hat))).descend hw₁ (by rw [hat, if_pos List.prefix_rfl])
  have hthere : w.files.pathExists w.cwd (dest.descend (l ++ [s])) = false := by
    rw [pathExists_descend hw hleads hfree hn (by simp), hnone]
    rfl
  exact emit_made hlinks (hn s (by simp)) hthere hparent hw₁ hat ho hleads₁ hnone hsource

/-- If there is a file on the way to the target, its levels cannot be made, and nothing changes. -/
theorem emit_obstructed (hnone : w.files.at? (top ++ (l ++ [s])) = none) (ho : ¬ w.files.OpenTo (top ++ l)) :
    emit options source (dest.descend (l ++ [s])) w =
      .error (.write (dest.descend l) (obstacle w.files (top ++ l))) w := by
  have hl : ∀ t ∈ l, IsName t := fun t ht => hn t (List.mem_append_left _ ht)
  obtain ⟨k, old, hk, hat⟩ := exists_file_above hw hfree hleads.directory ho
  have hne : l ≠ [] := by
    rintro rfl
    rw [List.prefix_nil.1 hk, List.append_nil, hleads.directory] at hat
    cases hat
  have hcause : obstacle w.files (top ++ l) = if k = l then .taken else .notDirectory := by
    by_cases he : k = l
    · rw [obstacle, if_pos he, ← he, hat]
      rfl
    · rw [obstacle, if_neg he, hw.at?_below (by rw [hat]; exact nofun) ((List.prefix_append_right_inj top).2 hk)
        (by simpa using Ne.symm he)]
      rfl
  have hparent : makeParent (dest.descend (l ++ [s])) w =
      .error (.write (dest.descend l) (if k = l then .taken else .notDirectory)) w := by
    rw [makeParent, parent?_descend hleads.1 hn, if_neg hne]
    exact makeDirectories_refused (makeLevels_obstructed hw hleads hl hk hat)
  rw [emit_absent hw hleads hfree hlinks hn hnone, hcause]
  exact bind_error hparent

end

/-- A file that is to go below a directory is left out, copied or refused. -/
theorem emit_below (hnil : names ≠ []) (hn : ∀ t ∈ names, IsName t)
    (hsource : w.files.found w.cwd source = .ok (loc, .file bytes)) : Delivers dest top names bytes w.files
      (failure? (emit options source (dest.descend names)) w)
      ((emit options source (dest.descend names)).after w).files := by
  obtain ⟨l, s, rfl⟩ := (List.eq_nil_or_concat' names).resolve_left hnil
  cases hat : w.files.at? (top ++ (l ++ [s])) with
  | some node =>
      have hsome : (w.files.at? (top ++ (l ++ [s]))).isSome := by rw [hat]; rfl
      obtain ⟨events, hrun⟩ : ∃ events, emit options source (dest.descend (l ++ [s])) w = .ok () { w with events := events } :=
        emit_there hw hleads hfree hlinks hn hsome
      rw [failure?_ok hrun, after_ok hrun]
      exact .kept hsome
  | none =>
      by_cases ho : w.files.OpenTo (top ++ l)
      · obtain ⟨fs, events, hrun, hfs⟩ := emit_deposits hw hleads hfree hlinks hn hat ho hsource
        rw [failure?_ok hrun, after_ok hrun]
        exact .copied hnil hat (by simpa using ho) hfs
      · have hrun : emit options source (dest.descend (l ++ [s])) w = .error _ w :=
          emit_obstructed hw hleads hfree hlinks hn hat ho
        have hrefused : Delivers dest top (l ++ [s]) bytes w.files _ w.files := .refused hat (by simpa using ho)
        rw [failure?_error hrun, after_error hrun]
        simpa using hrefused

end

/-- Where the destination is yet to be made, any file is copied. -/
theorem emit_first (hw : w.files.WellFormed) (hv : w.files.Vacates dest top) (hlinks : options.links = [])
    (hnil : names ≠ []) (hn : ∀ t ∈ names, IsName t)
    (hsource : w.files.found w.cwd source = .ok (loc, .file bytes)) :
    Delivers dest top names bytes w.files (failure? (emit options source (dest.descend names)) w)
      ((emit options source (dest.descend names)).after w).files := by
  obtain ⟨l, s, rfl⟩ := (List.eq_nil_or_concat' names).resolve_left hnil
  have hl : ∀ t ∈ l, IsName t := fun t ht => hn t (List.mem_append_left _ ht)
  have hall : ∀ {k : List String}, (∀ t ∈ k, IsName t) → ∀ t ∈ top ++ k, IsName t := fun hk t ht =>
    (List.mem_append.1 ht).elim (hv.names t) (hk t)
  have hbelow : ∀ k, w.files.at? (top ++ k) = none := by
    intro k
    by_cases hk : k = []
    · rw [hk, List.append_nil, hv.nothing]
    · exact hw.at?_below (by simp [hv.nothing]) (List.prefix_append _ _) (by simpa using hk)
  have hopen : ∀ k, w.files.OpenTo (top ++ k) := by
    intro k y hy
    rcases List.prefix_or_prefix_of_prefix hy (List.prefix_append top k) with hyt | ⟨r, rfl⟩
    · exact hv.openTo y hyt
    · exact .inl (hbelow r)
  obtain ⟨fs₁, hmake, hw₁, hat⟩ := (hopen l).makeDirectories hw w.cwd
    (p := if l = [] then dest.trimmed else dest.descend l) (by
      split
      · next hnil => rw [hnil, List.append_nil]; exact hv.spells.trimmed
      · exact hv.spells.descend hl) (hall hl)
  have hparent : makeParent (dest.descend (l ++ [s])) w = .ok () { w with files := fs₁ } := by
    rw [makeParent, parent?_descend hv.spells.ne_empty hn]
    exact makeDirectories_made hmake
  have hthere : w.files.pathExists w.cwd (dest.descend (l ++ [s])) = false := by
    rw [pathExists]
    cases hf : w.files.found w.cwd (dest.descend (l ++ [s])) with
    | error cause => rfl
    | ok there =>
        have hloc : there.1 = top ++ (l ++ [s]) := found_unlinked (hv.spells.descend hn) (fun t ht => (hall hn t ht).isStep)
          (fun y target hy => ((hopen _).above hy).not_link target) hf
        cases (hloc ▸ at?_of_found hf).symm.trans (hbelow _)
  have hleads₁ := leadsTo_of_spells hw₁ (hv.spells.descend hl) (by rw [hat, if_pos List.prefix_rfl]) w.cwd
  obtain ⟨fs, events, hrun, hfs⟩ := emit_made hlinks (hn s (by simp)) hthere hparent hw₁ hat (hopen l) hleads₁ (hbelow _) hsource
  rw [failure?_ok hrun, after_ok hrun]
  exact .copied hnil (hbelow _) (by simpa using hopen l) hfs

theorem emit_delivers (hw : w.files.WellFormed) (hdest : w.files.LeadsTo w.cwd dest top ∨ w.files.Vacates dest top)
    (hfree : w.files.LinkFree top) (hlinks : options.links = []) (hnil : names ≠ []) (hn : ∀ t ∈ names, IsName t)
    (hsource : w.files.found w.cwd source = .ok (loc, .file bytes)) : Delivers dest top names bytes w.files
      (failure? (emit options source (dest.descend names)) w)
      ((emit options source (dest.descend names)).after w).files :=
  hdest.elim (fun hleads => emit_below hw hleads hfree hlinks hnil hn hsource) fun hv => emit_first hw hv hlinks hnil hn hsource

end Walk

end SiteTree
