import SiteTree.Proofs.Asset.Resolution
import SiteTree.Proofs.Asset.Turns

/-!
Both passes with the files taken in any order. Where no new name is in use they succeed, and what was
there before tells what they leave behind.
-/

namespace SiteTree.Asset

open SiteTree.Action FileSystem SiteTree.Path Text

variable {fs fs' : FileSystem} {dir loc x : Location} {root : Path} {name n m : String}
  {rel rest : List String} {bytes : ByteArray} {D : Location → Prop} {w w' : World} {k : Nat}
  {pairs : List (String × String)} {renames : Renames} {order : Order}

/-- The order in which the assets of a directory have their turns, and the order of the texts. -/
structure Order where
  assets : Path → List Entry → List Entry
  texts : List Path → List Path
  assets_perm : ∀ dir entries, (assets dir entries).Perm entries
  texts_perm : ∀ paths, (texts paths).Perm paths

namespace Order

def byName : Order := ⟨fun _ entries => entries, fun paths => paths, fun _ _ => .refl _, fun _ => .refl _⟩

def backwards : Order :=
  ⟨fun _ entries => entries.reverse, List.reverse, fun _ => List.reverse_perm, List.reverse_perm⟩

def stampBelow (order : Order) (root : Path) : Nat → Path → Action (List (String × String))
  | 0, dir => throw (.read dir .tooDeep)
  | n + 1, dir => do
    let entries ← entriesOf dir
    let below ← (entries.filter (·.isDirectory)).mapM fun e => stampBelow order root n e.path
    let files := entries.filter fun e => !e.isDirectory && !isPage e.path
    let renamed ← (order.assets dir files).mapM (stampFile root)
    return below.flatten ++ renamed.filterMap id

def stampTree (order : Order) (root : Path) : Action Renames := do
  let w ← get
  let renames ← order.stampBelow root w.files.maxDepth root
  return Table.ofPairs renames

def redirectTree (order : Order) (root : Path) (renames : Renames) : Action Unit := do
  if renames.isEmpty then return
  let paths ← textCandidates root
  (order.texts paths).forM (redirectFile renames)

def runPasses (order : Order) (root : Path) : Action Renames := do
  let renames ← order.stampTree root
  order.redirectTree root renames
  return renames

theorem byName_stampBelow (root : Path) (k : Nat) (dir : Path) :
    byName.stampBelow root k dir = Asset.stampBelow root k dir := by
  induction k generalizing dir with
  | zero => rfl
  | succ k ih =>
      have hih : (fun e : Entry => byName.stampBelow root k e.path) = fun e => Asset.stampBelow root k e.path :=
        funext fun e => ih e.path
      rw [stampBelow, Asset.stampBelow, hih]
      rfl

theorem byName_stampTree (root : Path) : byName.stampTree root = Asset.stampTree root := by
  rw [stampTree, Asset.stampTree]
  apply bind_congr
  intro w
  rw [byName_stampBelow]

/-- The order of the names is the one that is run. -/
theorem byName_runPasses (root : Path) : byName.runPasses root = Asset.runPasses root := by
  rw [runPasses, Asset.runPasses, byName_stampTree]
  rfl

end Order

/-- No new name of an asset of the directory is in use in it. -/
def FreshIn (fs : FileSystem) (dir : Location) : Prop :=
  ∀ n m, (shelfOf fs dir).newName? n = some m → fs.at? (dir ++ [m]) = none

theorem FreshNames.freshIn (h : FreshNames fs loc) (hdir : loc <+: dir) : FreshIn fs dir := fun n m hm =>
  h dir n m hdir hm

theorem FreshIn.fresh (h : FreshIn fs dir) : (shelfOf fs dir).Fresh := by
  intro n m hm
  rw [shelfOf, h n m hm]
  exact ite_self none

/-- After a turn the names are as free as before. -/
theorem FreshIn.turn (h : FreshIn fs dir) (hw : fs.WellFormed) (hstock : Restocked D fs fs')
    (hshelf : shelfOf fs' dir = (shelfOf fs dir).stampOne name) : FreshIn fs' dir := by
  intro n m hm
  have hnamed := named_shelfOf hw dir
  rw [hshelf] at hm
  have hne : n ≠ name := by
    rintro rfl
    rw [Shelf.newName?_stampOne_self h.fresh] at hm
    cases hm
  have hfree := h.fresh.stampOne hnamed name n m hm
  rw [Shelf.newName?_stampOne hnamed h.fresh hne] at hm
  rw [← hshelf] at hfree
  have hnot : ∀ bytes, fs'.at? (dir ++ [m]) ≠ some (.file bytes) := by
    intro bytes hat
    have hpage : ¬ IsPageName m := by
      obtain ⟨c, hc, hs⟩ := Shelf.newName?_eq_some.1 hm
      have hn := hnamed n (by rw [hc]; rfl)
      exact fun hp => (shelfOf_eq_some.1 hc).1 ((isPageName_stamped hn hs).1 hp)
    rw [shelfOf_eq_some.2 ⟨hpage, hat⟩] at hfree
    cases hfree
  rw [Option.eq_none_iff_forall_ne_some]
  rintro node hnode
  rw [hstock.node _ node (fun ⟨bytes, he⟩ => hnot bytes (he ▸ hnode)), h n m hm] at hnode
  cases hnode

/-- Directories that have had all their turns have no new names to give, and the others are as before. -/
theorem FreshNames.stamped (h : FreshNames fs loc) (hw : fs.WellFormed) (hst : Stamped x D fs fs' pairs) :
    FreshNames fs' loc := by
  intro dir n m hdir hm
  by_cases hD : D dir
  · obtain ⟨bytes, hb, hs⟩ := Shelf.newName?_eq_some.1 hm
    have hname := named_shelfOf hst.wellFormed dir n (by rw [hb]; rfl)
    rw [hst.shelf dir hD] at hb
    have haddressed := Shelf.stampAll_addressed (fun _ => isName_of_mem_assetsIn hw)
      (fun x b hx => .inl (mem_assetsIn.2 (by rw [hx]; rfl))) hb
    rw [(stamp?_eq_none hname).2 haddressed] at hs
    cases hs
  · rw [hst.toRestocked.shelfOf_apart hD] at hm
    rw [hst.kept, h dir n m hdir hm]
    rintro ⟨d, s, hd, -, he⟩
    exact hD ((List.append_inj' he rfl).1 ▸ hd)

/-- A file in a directory and its new path both end in a name. -/
theorem sibling_ends {cwd : Location} (h : fs.LeadsTo cwd root dir) (hn : IsName n) (hm : IsName m) :
    ((target (root.child n)).2 = .name ∧ (target ((root.child n).withFileName m)).2 = .name) ∧
      endsInSlash (root.child n) = false ∧ endsInSlash ((root.child n).withFileName m) = false := by
  have htrim := trimmed_ne_empty h.1
  have hopen := isOpen_child hn h.1
  have hopen' := isOpen_child hm htrim
  rw [Path.IsOpen] at hopen hopen'
  rw [withFileName_child hn h.1]
  exact ⟨⟨target_name (stretches_child hn h.1) hn.isStep, target_name (stretches_child hm htrim) hm.isStep⟩,
    decide_eq_false hopen, decide_eq_false hopen'⟩

section

variable (hr : Region root loc w) (hd : w.files.at? (loc ++ rel) = some .directory)

include hr hd

/-- A file gets another name in its directory, unless there is a directory of that name. -/
theorem Region.rename_eq (hn : IsName n) (hm : IsName m) (hne : m ≠ n)
    (hat : w.files.at? (loc ++ rel ++ [n]) = some (.file bytes)) :
    w.files.rename w.cwd ((root.descend rel).child n) (((root.descend rel).child n).withFileName m) =
      if w.files.at? (loc ++ rel ++ [m]) = some .directory then .error .isDirectory
      else .ok (w.files.move (loc ++ rel ++ [n]) (loc ++ rel ++ [m])) := by
  have hleads := hr.leadsTo_descend hd
  obtain ⟨⟨hold, hnew⟩, hopen⟩ := sibling_ends hleads hn hm
  have hfrom := hleads.locate_child hn
  have hto := hleads.locate_sibling hn hm
  rw [placeIn, hat] at hfrom
  rw [placeIn] at hto
  cases hthere : w.files.at? (loc ++ rel ++ [m]) with
  | none =>
      rw [hthere] at hto
      exact rename_vacant hfrom hto hold hnew (fun _ => hopen) not_append_isPrefix
  | some node =>
      rw [hthere] at hto
      have hin : ¬ loc ++ rel ++ [n] <+: loc ++ rel ++ [m] := fun hc => hne (List.cons.inj
        (List.append_cancel_left (hc.eq_of_length (by simp)))).1.symm
      have hout : ¬ loc ++ rel ++ [m] <+: loc ++ rel ++ [n] := fun hc => hne (List.cons.inj
        (List.append_cancel_left (hc.eq_of_length (by simp)))).1
      rw [rename_onto hfrom hto hold hnew hopen rfl hin hout]
      cases node <;> rfl

/-- An asset whose new name is free has its turn. -/
theorem stampFile_runs (hn : IsName n) (hat : w.files.at? (loc ++ rel ++ [n]) = some (.file bytes))
    (hfree : ∀ m, stamp? n (fingerprint bytes) = some m → w.files.at? (loc ++ rel ++ [m]) = none) {b : Bool} :
    ∃ r w', stampFile root ⟨n, (root.descend rel).child n, b⟩ w = .ok r w' := by
  have hread : readBytes ((root.descend rel).child n) w = .ok bytes w := by
    rw [readBytes, look_eq, (hr.readFile_child hd hn).2 hat]
  rw [stampFile, bind_ok hread]
  cases hs : stamp? n (fingerprint bytes) with
  | none => exact ⟨_, _, rfl⟩
  | some m =>
      have hm := stamp?_isName hn (isHash_fingerprint bytes) hs
      have hmove := change_eq (fun fs cwd => fs.rename cwd ((root.descend rel).child n)
        (((root.descend rel).child n).withFileName m)) (.write (((root.descend rel).child n).withFileName m)) w
      rw [hr.rename_eq hd hn hm (stamped_ne hn hs) hat, hfree m hs] at hmove
      exact ⟨_, _, bind_ok hmove⟩

end

/-- The assets of a directory have their turns in any order. -/
theorem stampFiles_runs (hr : Region root loc w) (hd : w.files.at? (loc ++ rel) = some .directory)
    (hfresh : FreshIn w.files (loc ++ rel)) (hdup : rest.Nodup)
    (hrest : ∀ n ∈ rest, (shelfOf w.files (loc ++ rel) n).isSome) :
    ∃ rs w', (rest.map fun n => ⟨n, (root.descend rel).child n, false⟩).mapM (stampFile root) w = .ok rs w' := by
  induction rest generalizing w with
  | nil => exact ⟨[], w, rfl⟩
  | cons n rest ih =>
      obtain ⟨hmem, hdup⟩ := List.nodup_cons.1 hdup
      have hnamed := named_shelfOf hr.wellFormed (loc ++ rel)
      have hn := hnamed n (hrest n (by simp))
      obtain ⟨bytes, hb⟩ := Option.isSome_iff_exists.1 (hrest n (by simp))
      obtain ⟨hpage, hat⟩ := shelfOf_eq_some.1 hb
      obtain ⟨r, w₁, hone⟩ := stampFile_runs hr hd hn hat (b := false) fun m hm =>
        hfresh n m (by rw [Shelf.newName?_of_some hb, hm])
      obtain ⟨hstock, hcwd, hshelf, -⟩ := stampFile_ok hr hd hn hpage hone
      obtain ⟨rs, w₂, hall⟩ := ih (hr.restocked hcwd hstock) (hstock.directory.2 hd)
        (hfresh.turn hr.wellFormed hstock hshelf) hdup fun k hk => by
          have hsome := hrest k (List.mem_cons_of_mem n hk)
          have hkn : k ≠ n := fun he => hmem (he ▸ hk)
          rw [hshelf]
          cases hnew : (shelfOf w.files (loc ++ rel)).newName? n with
          | none => rwa [Shelf.stampOne_of_none hnew]
          | some m => rwa [Shelf.stampOne_of_some hnew, if_neg (hfresh.fresh.ne hnew hsome), if_neg hkn]
      refine ⟨r :: rs, w₂, ?_⟩
      rw [List.map_cons, List.mapM_cons, bind_ok hone, bind_ok hall]
      rfl

theorem stampDirs_runs {f : Path → Action (List (String × String))}
    (hbelow : ∀ {rel : List String} {w : World}, Region root loc w → w.files.at? (loc ++ rel) = some .directory →
      WithinDepth w.files (loc ++ rel) k → FreshNames w.files loc → ∃ pairs w', f (root.descend rel) w = .ok pairs w' ∧
        w'.cwd = w.cwd ∧ Stamped loc (DirsBelow w.files (loc ++ rel)) w.files w'.files pairs)
    {names : List String} (hr : Region root loc w) (hdup : names.Nodup)
    (hdirs : ∀ s ∈ names, w.files.at? (loc ++ rel ++ [s]) = some .directory)
    (hdepth : ∀ s ∈ names, WithinDepth w.files (loc ++ rel ++ [s]) k) (hfresh : FreshNames w.files loc) :
    ∃ lists w', names.mapM (fun s => f ((root.descend rel).child s)) w = .ok lists w' ∧ w'.cwd = w.cwd ∧
      Stamped loc (fun x => ∃ s ∈ names, DirsBelow w.files (loc ++ rel ++ [s]) x) w.files w'.files lists.flatten := by
  induction names generalizing w with
  | nil => exact ⟨[], w, rfl, rfl, .noDirs hr.wellFormed loc _⟩
  | cons s names ih =>
      obtain ⟨hs, hdup⟩ := List.nodup_cons.1 hdup
      have hd := hdirs s (by simp)
      have hk := hdepth s (by simp)
      rw [List.append_assoc] at hd hk
      obtain ⟨pairs, w₁, hone, hcwd, hst⟩ := hbelow hr hd hk hfresh
      rw [descend_append] at hone
      rw [← List.append_assoc] at hst
      have hsame := hst.toRestocked
      obtain ⟨lists, w₂, hall, hcwd', hst'⟩ := ih (hr.restocked hcwd hsame) hdup
        (fun t ht => hsame.directory.2 (hdirs t (List.mem_cons_of_mem s ht)))
        (fun t ht x hx => hdepth t (List.mem_cons_of_mem s ht) x (hsame.dirsBelow ▸ hx))
        (hfresh.stamped hr.wellFormed hst)
      refine ⟨pairs :: lists, w₂, ?_, hcwd'.trans hcwd, hst.oneMore hs hst'⟩
      rw [List.mapM_cons, bind_ok hone, bind_ok hall]
      rfl

/-- Another order of what a function gives comes from another order of what it is given. -/
theorem exists_of_perm_map {α β : Type} {f : α → β} {l : List β} {xs : List α} (h : l.Perm (xs.map f)) :
    ∃ ys : List α, ys.Perm xs ∧ l = ys.map f := by
  induction l generalizing xs with
  | nil =>
      obtain rfl := List.map_eq_nil_iff.1 h.symm.eq_nil
      exact ⟨[], .nil, rfl⟩
  | cons b l ih =>
      obtain ⟨x, hx, rfl⟩ := List.mem_map.1 (h.mem_iff.1 List.mem_cons_self)
      obtain ⟨before, rest, rfl⟩ := List.append_of_mem hx
      rw [List.map_append, List.map_cons] at h
      have hl : l.Perm ((before ++ rest).map f) := by
        rw [List.map_append]
        exact (h.trans List.perm_middle).cons_inv
      obtain ⟨ys, hys, rfl⟩ := ih hl
      exact ⟨x :: ys, (hys.cons x).trans List.perm_middle.symm, rfl⟩

/-- The induction is on the nesting that is left. -/
theorem Order.stampBelow_runs (order : Order) (k : Nat) {rel : List String} {w : World} (hr : Region root loc w)
    (hd : w.files.at? (loc ++ rel) = some .directory) (hdepth : WithinDepth w.files (loc ++ rel) k)
    (hfresh : FreshNames w.files loc) : ∃ pairs w', order.stampBelow root k (root.descend rel) w = .ok pairs w' ∧
      w'.cwd = w.cwd ∧ Stamped loc (DirsBelow w.files (loc ++ rel)) w.files w'.files pairs := by
  induction k generalizing rel w with
  | zero => exact absurd (hdepth _ ⟨List.prefix_rfl, hd⟩) (by simp)
  | succ k ih =>
      have hleads := hr.leadsTo_descend hd
      have hentries := entriesOf_eq hr.wellFormed hleads hr.not_link
      obtain ⟨lists, w₁, hdirs, hcwd, hst⟩ := stampDirs_runs ih hr
        (nodup_subdirs (p := root.descend rel)) (fun s hs => mem_subdirs.1 hs) (by
          rintro s - x hx
          have hlen := hdepth x ⟨(List.prefix_append _ _).trans hx.1, hx.2⟩
          rw [List.length_append, List.length_singleton]
          omega) hfresh
      have hr₁ := hr.restocked hcwd hst.toRestocked
      have hd₁ := hst.directory.2 hd
      have hfresh₁ := (hfresh.stamped hr.wellFormed hst).freshIn (List.prefix_append loc rel)
      -- the assets are listed before any directory below has changed, which is nothing to them
      have hshelf : shelfOf w₁.files (loc ++ rel) = shelfOf w.files (loc ++ rel) := by
        apply hst.toRestocked.shelfOf_apart
        rintro ⟨s, -, hx, -⟩
        exact not_append_isPrefix hx
      obtain ⟨turns, hturns, heq⟩ := exists_of_perm_map (order.assets_perm (root.descend rel)
        ((assetsIn w.files (loc ++ rel)).map fun n => ⟨n, (root.descend rel).child n, false⟩))
      have hmem : ∀ n ∈ turns, n ∈ assetsIn w.files (loc ++ rel) := fun n hn => hturns.mem_iff.1 hn
      obtain ⟨rs, w₂, hfiles⟩ := stampFiles_runs hr₁ hd₁ hfresh₁
        (hturns.nodup_iff.2 (sorted_nodup (assetsIn_sorted _ _))) fun n hn => by
          rw [hshelf]
          exact mem_assetsIn.1 (hmem n hn)
      obtain ⟨hstock, hcwd', hafter, hrs⟩ := stampFiles_ok hr₁ hd₁
        (fun n hn => isName_of_assets hr.wellFormed n (hmem n hn)) hfiles
      obtain ⟨hsame, hsame'⟩ := Shelf.stampAll_perm hturns (named_shelfOf hr₁.wellFormed _) hfresh₁.fresh
      refine ⟨lists.flatten ++ rs.filterMap id, w₂, ?_, hcwd'.trans hcwd, hst.around hr.wellFormed hd
        (fun s => mem_subdirs) hstock (hafter.trans hsame) fun q => ?_⟩
      · rw [Order.stampBelow, bind_ok hentries, List.filter_map, List.mapM_map]
        refine (bind_ok hdirs).trans ?_
        rw [filter_assets hr.wellFormed hleads.1 hr.not_link, heq, bind_ok hfiles]
        rfl
      · rw [hrs, List.mem_map]
        constructor
        · rintro ⟨⟨n, m⟩, hnm, rfl⟩
          exact ⟨n, m, hsame'.mem_iff.1 hnm, rfl⟩
        · rintro ⟨n, m, hnm, rfl⟩
          exact ⟨(n, m), hsame'.mem_iff.2 hnm, rfl⟩

theorem Order.stampTree_runs (order : Order) (hr : Region root loc w) (hfresh : FreshNames w.files loc) :
    ∃ pairs w', order.stampTree root w = .ok (Table.ofPairs pairs) w' ∧ w'.cwd = w.cwd ∧
      Stamped loc (DirsBelow w.files loc) w.files w'.files pairs := by
  have hd : w.files.at? (loc ++ []) = some .directory := by rw [List.append_nil]; exact hr.leadsTo.directory
  obtain ⟨pairs, w', hrun, hcwd, hst⟩ :=
    order.stampBelow_runs w.files.maxDepth hr hd (withinDepth hr.wellFormed _) hfresh
  rw [List.append_nil] at hst
  refine ⟨pairs, w', ?_, hcwd, hst⟩
  rw [Order.stampTree, get_bind]
  exact (bind_ok hrun).trans rfl

theorem Region.write_file (hr : Region root loc w) (hd : w.files.at? (loc ++ rel) = some .directory) (hn : IsName n)
    {old : ByteArray} (hat : w.files.at? (loc ++ rel ++ [n]) = some (.file old)) (bytes : ByteArray) :
    w.files.write w.cwd ((root.descend rel).child n) bytes = .ok (w.files.put (loc ++ rel ++ [n]) (.file bytes)) := by
  have hleads := hr.leadsTo_descend hd
  have hresolve := hleads.resolve_child hn (hr.not_link n) true
  rw [placeIn, hat] at hresolve
  rw [write_open (isOpen_child hn hleads.1), hresolve]
  rfl

theorem redirectFile_runs (renames : Renames) (hr : Region root loc w)
    (hd : w.files.at? (loc ++ rel) = some .directory) (hn : IsName n) (hat : w.files.at? (loc ++ rel ++ [n]) = some (.file bytes)) :
    ∃ w', redirectFile renames ((root.descend rel).child n) w = .ok () w' := by
  have hread : readBytes ((root.descend rel).child n) w = .ok bytes w := by
    rw [readBytes, look_eq, (hr.readFile_child hd hn).2 hat]
  rw [redirectFile, bind_ok hread]
  cases hc : (String.fromUTF8? bytes).bind fun content => redirect? content renames with
  | none => exact ⟨_, rfl⟩
  | some content =>
      have hwritten := hr.write_file hd hn hat content.toUTF8
      have hwrite : ∀ events, writeBytes ((root.descend rel).child n) content.toUTF8 { w with events := events } =
          .ok () { w with files := w.files.put (loc ++ rel ++ [n]) (.file content.toUTF8), events := events } := by
        intro events
        rw [writeBytes, change_eq]
        simp only [hwritten]
      exact ⟨_, hwrite _⟩

/-- The files are rewritten in any order. -/
theorem redirectFiles_runs (renames : Renames) {xs : List Location} (hr : Region root loc w) (hdup : xs.Nodup)
    (hxs : ∀ x ∈ xs, ∃ rel n bytes, x = loc ++ rel ++ [n] ∧ w.files.at? x = some (.file bytes)) :
    ∃ w', (xs.map fun x => root.descend (x.drop loc.length)).forM (redirectFile renames) w = .ok () w' := by
  induction xs generalizing w with
  | nil => exact ⟨w, rfl⟩
  | cons x xs ih =>
      obtain ⟨hx, hdup'⟩ := List.nodup_cons.1 hdup
      obtain ⟨rel, n, bytes, rfl, hat⟩ := hxs x (by simp)
      have hsome : (w.files.at? (loc ++ rel ++ [n])).isSome := by rw [hat]; rfl
      have hd := hr.wellFormed.parent hsome
      have hn := hr.wellFormed.isName hsome
      obtain ⟨w₁, hone⟩ := redirectFile_runs renames hr hd hn hat
      obtain ⟨hcwd, hred⟩ := redirectFile_ok hr hd hn hone
      obtain ⟨w₂, hall⟩ := ih (hred.region hcwd hr) hdup' fun y hy => by
        obtain ⟨rel', n', b, rfl, hb⟩ := hxs y (List.mem_cons_of_mem _ hy)
        refine ⟨rel', n', b, rfl, ?_⟩
        rw [hred.kept _ fun he => hx (he ▸ hy), hb]
      have hpath : root.descend ((loc ++ rel ++ [n]).drop loc.length) = (root.descend rel).child n := by simp
      refine ⟨w₂, ?_⟩
      rw [← hpath] at hone
      exact (bind_ok hone).trans hall

theorem Order.redirectTree_runs (order : Order) (hr : Region root loc w)
    (hroot : w.files.resolve w.cwd false root = .ok (.found loc .directory)) (renames : Renames) :
    ∃ w', order.redirectTree root renames w = .ok () w' ∧ w'.cwd = w.cwd ∧
      Redirected renames (loc <+: ·) w.files w'.files := by
  rw [Order.redirectTree]
  split
  · next hnil =>
    rw [List.isEmpty_iff.1 hnil]
    exact ⟨w, rfl, rfl, .of_nil hr.wellFormed _⟩
  have hd := hr.leadsTo.directory
  have hmem := fun x => mem_leavesBelow (x := x) hr.wellFormed hd (withinDepth hr.wellFormed loc)
  have hpaths : textCandidates root w =
      .ok ((leavesBelow w.files loc w.files.maxDepth).map fun x => root.descend (x.drop loc.length)) w := by
    have hplace : look (fun fs cwd => fs.resolve cwd false root) (blameVisit root) w =
        .ok (.found loc .directory) w := by
      rw [look_eq, hroot]
    rw [textCandidates, bind_ok hplace, get_bind, ← filesBelow_root]
    rfl
  obtain ⟨turns, hturns, heq⟩ := exists_of_perm_map
    (order.texts_perm ((leavesBelow w.files loc w.files.maxDepth).map fun x => root.descend (x.drop loc.length)))
  have hturn : ∀ x, x ∈ turns ↔ IsLeaf w.files loc x := fun x => hturns.mem_iff.trans (hmem x)
  have hdup : turns.Nodup := hturns.nodup_iff.2 (nodup_leavesBelow _ _ _)
  obtain ⟨w', hrun⟩ := redirectFiles_runs renames hr hdup fun x hx => by
    have hleaf := (hturn x).1 hx
    obtain ⟨rel, n, rfl, -⟩ := hleaf.spelled hd
    obtain ⟨-, node, hnode, hne⟩ := hleaf
    cases node with
    | file bytes => exact ⟨rel, n, bytes, rfl, hnode⟩
    | link target => exact absurd hnode (hr.not_link n target)
    | directory => exact absurd rfl hne
  obtain ⟨hcwd, hred⟩ := redirectFiles_ok hr hdup (fun x hx => ((hturn x).1 hx).spelled hd) hrun
  refine ⟨w', ?_, hcwd, hred.of_leaves hturn⟩
  rw [bind_ok hpaths, heq, hrun]

/-- Both passes in any order do what they do in the order of the names. -/
theorem Order.runPasses_runs (order : Order) (hr : Region root loc w)
    (hroot : w.files.resolve w.cwd false root = .ok (.found loc .directory)) (hfresh : FreshNames w.files loc) :
    ∃ pairs, ∃ w₁ w' : World, order.runPasses root w = .ok (Table.ofPairs pairs) w' ∧ w'.cwd = w.cwd ∧
      Stamped loc (DirsBelow w.files loc) w.files w₁.files pairs ∧
      Redirected (Table.ofPairs pairs) (loc <+: ·) w₁.files w'.files := by
  obtain ⟨pairs, w₁, hstamp, hcwd, hst⟩ := order.stampTree_runs hr hfresh
  have hroot₁ : w₁.files.resolve w₁.cwd false root = .ok (.found loc .directory) := by
    rw [hcwd]
    exact resolve_mono hroot hst.outgrows
  obtain ⟨w', hredirect, hcwd', hred⟩ := order.redirectTree_runs (hr.restocked hcwd hst.toRestocked) hroot₁
    (Table.ofPairs pairs)
  refine ⟨pairs, w₁, w', ?_, hcwd'.trans hcwd, hst, hred⟩
  rw [Order.runPasses, bind_ok hstamp, bind_ok hredirect]
  rfl

end SiteTree.Asset
