import SiteTree.Proofs.Asset.Stock

/-!
The first pass gives the assets of every directory their new names, one directory at a time, and
tells which names it has given.
-/

namespace SiteTree.Asset

open SiteTree.Action FileSystem SiteTree.Path Text

variable {fs fs' fs₁ fs₂ : FileSystem} {dir loc x : Location} {root p : Path} {name n m : String}
  {rel rest : List String} {bytes : ByteArray} {D E : Location → Prop} {w w' : World} {k : Nat}
  {pairs pairs' : List (String × String)}

/-- The path leads to a directory of the world with no link in it. -/
structure Region (root : Path) (loc : Location) (w : World) : Prop where
  wellFormed : w.files.WellFormed
  leadsTo : w.files.LeadsTo w.cwd root loc
  linkFree : w.files.LinkFree loc

theorem Region.restocked (h : Region root loc w) (hc : w'.cwd = w.cwd) (hr : Restocked D w.files w'.files) :
    Region root loc w' := ⟨hr.wellFormed, hc ▸ hr.leadsTo h.leadsTo, hr.linkFree h.linkFree⟩

/-- The address of a location below the root, with slashes only. -/
def addressOf (root x : Location) : String :=
  Ignore.slashed (ofChars (glue '/' ((x.drop root.length).map String.toList)))

theorem addressOf_append (loc rel : Location) :
    addressOf loc (loc ++ rel) = Ignore.slashed (ofChars (glue '/' (rel.map String.toList))) := by
  rw [addressOf, List.drop_left]

theorem Region.not_link (hr : Region root loc w) (s : String) (target : String) :
    w.files.at? (loc ++ rel ++ [s]) ≠ some (.link target) := by
  rw [List.append_assoc]
  exact hr.linkFree _ target (List.prefix_append _ _)

section

variable (hr : Region root loc w) (hd : w.files.at? (loc ++ rel) = some .directory)

include hr hd

theorem Region.leadsTo_descend : w.files.LeadsTo w.cwd (root.descend rel) (loc ++ rel) :=
  hr.leadsTo.descend hr.wellFormed hd

theorem Region.relativeName_child (hn : IsName n) :
    relativeName root ((root.descend rel).child n) = addressOf loc (loc ++ rel ++ [n]) := by
  have hrel := names_below hr.wellFormed (by rw [hd]; rfl)
  rw [relativeName, ← descend_append, List.append_assoc, addressOf_append, relativeTo_descend hr.leadsTo.1 ?_ (by simp)]
  intro s hs
  rcases List.mem_append.1 hs with hs | hs
  · exact hrel s hs
  · exact List.mem_singleton.1 hs ▸ hn

theorem Region.relativeName_sibling (hn : IsName n) (hm : IsName m) :
    relativeName root (((root.descend rel).child n).withFileName m) = addressOf loc (loc ++ rel ++ [m]) := by
  have hrel := names_below hr.wellFormed (by rw [hd]; rfl)
  rw [relativeName, relativeTo_sibling hr.leadsTo.1 hrel hn hm, List.append_assoc, addressOf_append]

theorem Region.at?_of_readFile (hn : IsName n)
    (h : w.files.readFile w.cwd ((root.descend rel).child n) = .ok bytes) :
    w.files.at? (loc ++ rel ++ [n]) = some (.file bytes) := by
  obtain ⟨loc', hl⟩ := readFile_ok h
  rw [(hr.leadsTo_descend hd).resolve_child hn (hr.not_link n), placeIn] at hl
  split at hl <;> cases hl
  assumption

theorem Region.readFile_child (hn : IsName n) : w.files.readFile w.cwd ((root.descend rel).child n) = .ok bytes ↔
    w.files.at? (loc ++ rel ++ [n]) = some (.file bytes) := by
  refine ⟨hr.at?_of_readFile hd hn, fun hat => ?_⟩
  rw [readFile, (hr.leadsTo_descend hd).found_child hn hat rfl]
  rfl

/-- A rename beside a file moves it, and nothing else goes but a file under the new name. -/
theorem Region.at?_rename (hn : IsName n) (hm : IsName m) (hne : m ≠ n)
    (hat : w.files.at? (loc ++ rel ++ [n]) = some (.file bytes))
    (h : w.files.rename w.cwd ((root.descend rel).child n) (((root.descend rel).child n).withFileName m) = .ok fs') :
    fs'.WellFormed ∧ w.files.at? (loc ++ rel ++ [m]) ≠ some .directory ∧
      ∀ x, fs'.at? x = if x = loc ++ rel ++ [m] then some (.file bytes)
        else if x = loc ++ rel ++ [n] then none else w.files.at? x := by
  have hleads := hr.leadsTo_descend hd
  obtain ⟨start, node, place, hs, hp, hcase⟩ := rename_ok h
  rw [hleads.locate_child hn, placeIn, hat] at hs
  rw [hleads.locate_sibling hn hm] at hp
  cases hs
  cases hp
  rw [placeIn_location] at hcase
  have hneq : loc ++ rel ++ [m] ≠ loc ++ rel ++ [n] := by simpa using hne
  rcases hcase with ⟨-, he⟩ | ⟨rfl, -, hkind⟩
  · exact absurd he hneq
  have hgoal : w.files.at? (loc ++ rel ++ [m]) ≠ some .directory := fun hc => by
    cases hkind _ .directory (by rw [placeIn, hc])
  exact ⟨hr.wellFormed.move_file hat hd hm, hgoal,
    hr.wellFormed.at?_move_file hat (by simp) hneq hgoal⟩

theorem Region.restocked_rename (hn : IsName n) (hpage : ¬ IsPageName n) (hm : stamp? n (fingerprint bytes) = some m)
    (hat : w.files.at? (loc ++ rel ++ [n]) = some (.file bytes))
    (h : w.files.rename w.cwd ((root.descend rel).child n) (((root.descend rel).child n).withFileName m) = .ok fs') :
    Restocked (· = loc ++ rel) w.files fs' ∧
      shelfOf fs' (loc ++ rel) = (shelfOf w.files (loc ++ rel)).stampOne n := by
  have hmname := stamp?_isName hn (isHash_fingerprint bytes) hm
  have hmpage : ¬ IsPageName m := fun hc => hpage ((isPageName_stamped hn hm).1 hc)
  obtain ⟨hw, hgoal, hall⟩ := hr.at?_rename hd hn hmname (stamped_ne hn hm) hat h
  have hshelf : shelfOf w.files (loc ++ rel) n = some bytes := shelfOf_eq_some.2 ⟨hpage, hat⟩
  have hnew : (shelfOf w.files (loc ++ rel)).newName? n = some m := by rw [Shelf.newName?, hshelf]; exact hm
  refine ⟨⟨hw, fun x node hnode => ?_, fun x hx => ?_⟩, funext fun k => ?_⟩
  · rw [hall x]
    split
    · next he =>
      subst he
      refine ⟨fun hc => ?_, fun hc => ?_⟩
      · cases hc
        exact absurd ⟨bytes, rfl⟩ hnode
      · cases node with
        | file b => exact absurd ⟨b, rfl⟩ hnode
        | link target => exact absurd hc (hr.not_link m target)
        | directory => exact absurd hc hgoal
    · split
      · next he =>
        subst he
        rw [hat]
        refine ⟨fun hc => ?_, fun hc => ?_⟩ <;> cases hc
        exact absurd ⟨bytes, rfl⟩ hnode
      · rfl
  · rw [hall x, if_neg, if_neg]
    · rintro rfl
      exact hx ⟨_, n, rfl, hpage, rfl⟩
    · rintro rfl
      exact hx ⟨_, m, rfl, hmpage, rfl⟩
  · rw [Shelf.stampOne_of_some hnew, hshelf, shelfOf, hall]
    by_cases hkm : k = m
    · subst hkm
      simp [hmpage]
    · by_cases hkn : k = n
      · subst hkn
        simp [hkm]
      · simp [hkm, hkn, shelfOf]

/-- The two addresses that a rename in a directory is recorded under. -/
def recorded (loc dir : Location) (q : String × String) : String × String :=
  (addressOf loc (dir ++ [q.1]), addressOf loc (dir ++ [q.2]))

/-- One asset has its turn. -/
theorem stampFile_ok (hn : IsName n) (hpage : ¬ IsPageName n) {b : Bool} {r : Option (String × String)}
    (h : stampFile root ⟨n, (root.descend rel).child n, b⟩ w = .ok r w') :
    Restocked (· = loc ++ rel) w.files w'.files ∧ w'.cwd = w.cwd ∧
      shelfOf w'.files (loc ++ rel) = (shelfOf w.files (loc ++ rel)).stampOne n ∧
      r = ((shelfOf w.files (loc ++ rel)).newName? n).map fun m => recorded loc (loc ++ rel) (n, m) := by
  obtain ⟨bytes, w₁, hread, hrest⟩ := bind_eq_ok h
  obtain ⟨rfl, hbytes⟩ := look_ok hread
  have hat := hr.at?_of_readFile hd hn hbytes
  have hshelf : shelfOf w₁.files (loc ++ rel) n = some bytes := shelfOf_eq_some.2 ⟨hpage, hat⟩
  have hnew : (shelfOf w₁.files (loc ++ rel)).newName? n = stamp? n (fingerprint bytes) := by
    rw [Shelf.newName?, hshelf]
    rfl
  rw [hnew]
  dsimp only at hrest
  cases hs : stamp? n (fingerprint bytes) with
  | none =>
      rw [hs] at hrest
      cases hrest
      exact ⟨.refl hr.wellFormed _, rfl, by rw [Shelf.stampOne_of_none (hnew.trans hs)], rfl⟩
  | some m =>
      rw [hs] at hrest
      obtain ⟨_, w₂, hrename, hrest⟩ := bind_eq_ok hrest
      obtain ⟨fs', hfs', rfl⟩ := change_ok hrename
      cases hrest
      obtain ⟨hstock, hshelf'⟩ := hr.restocked_rename hd hn hpage hs hat hfs'
      refine ⟨hstock, rfl, hshelf', ?_⟩
      rw [Option.map_some, recorded, hr.relativeName_child hd hn,
        hr.relativeName_sibling hd hn (stamp?_isName hn (isHash_fingerprint bytes) hs)]

end

/-- All assets of one directory have their turns. -/
theorem stampFiles_ok (hr : Region root loc w) (hd : w.files.at? (loc ++ rel) = some .directory)
    (hrest : ∀ n ∈ rest, IsName n ∧ ¬ IsPageName n) {rs : List (Option (String × String))}
    (h : (rest.map fun n => ⟨n, (root.descend rel).child n, false⟩).mapM (stampFile root) w = .ok rs w') :
    Restocked (· = loc ++ rel) w.files w'.files ∧ w'.cwd = w.cwd ∧
      shelfOf w'.files (loc ++ rel) = (Shelf.stampAll rest (shelfOf w.files (loc ++ rel))).1 ∧
      rs.filterMap id = (Shelf.stampAll rest (shelfOf w.files (loc ++ rel))).2.map (recorded loc (loc ++ rel)) := by
  induction rest generalizing w rs with
  | nil => cases h; exact ⟨.refl hr.wellFormed _, rfl, rfl, rfl⟩
  | cons n rest ih =>
      obtain ⟨hn, hpage⟩ := hrest n (by simp)
      rw [List.map_cons, List.mapM_cons] at h
      obtain ⟨r, w₁, hone, hmore⟩ := bind_eq_ok h
      obtain ⟨rs', w₂, hall, hmore⟩ := bind_eq_ok hmore
      cases hmore
      obtain ⟨hstock, hcwd, hshelf, rfl⟩ := stampFile_ok hr hd hn hpage hone
      obtain ⟨hstock', hcwd', hshelf', hrs⟩ := ih (hr.restocked hcwd hstock) (hstock.directory.2 hd)
        (fun m hm => hrest m (List.mem_cons_of_mem n hm)) hall
      rw [hshelf] at hshelf' hrs
      refine ⟨hstock.trans hstock', hcwd'.trans hcwd, hshelf', ?_⟩
      rw [Shelf.stampAll_cons, List.map_append, ← hrs]
      cases (shelfOf w.files (loc ++ rel)).newName? n <;> rfl

/-- The assets of the directories have got their new names, and the pairs tell all of them. -/
structure Stamped (root : Location) (D : Location → Prop) (fs fs' : FileSystem) (pairs : List (String × String)) : Prop
    extends Restocked D fs fs' where
  shelf : ∀ d, D d → shelfOf fs' d = (Shelf.stampAll (assetsIn fs d) (shelfOf fs d)).1
  renames : ∀ q, q ∈ pairs ↔ ∃ d n m, D d ∧ (n, m) ∈ (Shelf.stampAll (assetsIn fs d) (shelfOf fs d)).2 ∧
    q = recorded root d (n, m)

namespace Stamped

theorem refl (h : fs.WellFormed) (loc : Location) : Stamped loc (fun _ => False) fs fs [] :=
  ⟨.refl h _, nofun, fun q => by simp⟩

theorem congr (h : Stamped loc D fs fs' pairs) (hDE : ∀ d, D d ↔ E d) : Stamped loc E fs fs' pairs := by
  obtain rfl : D = E := funext fun d => propext (hDE d)
  exact h

theorem union (h : Stamped loc D fs fs₁ pairs) (h' : Stamped loc E fs₁ fs₂ pairs') (hd : ∀ d, D d → ¬ E d) :
    Stamped loc (fun d => D d ∨ E d) fs fs₂ (pairs ++ pairs') := by
  have hback : ∀ d, E d → shelfOf fs₁ d = shelfOf fs d := fun d hE =>
    h.toRestocked.shelfOf_apart fun hD => hd d hD hE
  have hlist : ∀ d, E d → assetsIn fs₁ d = assetsIn fs d := fun d hE => assetsIn_congr (hback d hE)
  refine ⟨(h.toRestocked.weaken fun _ => .inl).trans (h'.toRestocked.weaken fun _ => .inr), ?_, fun q => ?_⟩
  · rintro d (hD | hE)
    · rw [h'.toRestocked.shelfOf_apart (hd d hD), h.shelf d hD]
    · rw [h'.shelf d hE, hlist d hE, hback d hE]
  · rw [List.mem_append, h.renames, h'.renames]
    constructor
    · rintro (⟨d, n, m, hD, hq⟩ | ⟨d, n, m, hE, hq⟩)
      · exact ⟨d, n, m, .inl hD, hq⟩
      · rw [hlist d hE, hback d hE] at hq
        exact ⟨d, n, m, .inr hE, hq⟩
    · rintro ⟨d, n, m, hD | hE, hq⟩
      · exact .inl ⟨d, n, m, hD, hq⟩
      · rw [← hlist d hE, ← hback d hE] at hq
        exact .inr ⟨d, n, m, hE, hq⟩

end Stamped

/-- The directories at and below a location. -/
def DirsBelow (fs : FileSystem) (dir x : Location) : Prop := dir <+: x ∧ fs.at? x = some .directory

theorem Restocked.dirsBelow (h : Restocked D fs fs') : DirsBelow fs' dir = DirsBelow fs dir :=
  funext fun _ => propext (and_congr_right fun _ => h.directory)

theorem dirsBelow_iff (h : fs.WellFormed) (hd : fs.at? dir = some .directory) :
    DirsBelow fs dir x ↔ (∃ s, fs.at? (dir ++ [s]) = some .directory ∧ DirsBelow fs (dir ++ [s]) x) ∨ x = dir := by
  constructor
  · rintro ⟨⟨l, rfl⟩, hx⟩
    cases l with
    | nil => exact .inr (by simp)
    | cons s l =>
        have he : dir ++ s :: l = dir ++ [s] ++ l := by simp
        rw [he] at hx ⊢
        exact .inl ⟨s, h.directory_above hx (List.prefix_append _ _), List.prefix_append _ _, hx⟩
  · rintro (⟨s, -, hs, hx⟩ | rfl)
    · exact ⟨(List.prefix_append _ _).trans hs, hx⟩
    · exact ⟨List.prefix_rfl, hd⟩

theorem child_eq_of_isPrefix {s t : String} (hs : dir ++ [s] <+: x) (ht : dir ++ [t] <+: x) : s = t := by
  obtain ⟨l, rfl⟩ := hs
  obtain ⟨r, hr⟩ := ht
  rw [List.append_assoc, List.append_assoc, List.append_cancel_left_eq] at hr
  exact (List.cons_eq_cons.1 hr).1.symm

namespace Stamped

theorem noDirs (h : fs.WellFormed) (loc : Location) (E : String → Location → Prop) :
    Stamped loc (fun x => ∃ s ∈ ([] : List String), E s x) fs fs [] := (refl h loc).congr fun x => by simp

/-- One directory and then others beside it. -/
theorem oneMore {s : String} {names : List String}
    (h : Stamped loc (DirsBelow fs (dir ++ [s])) fs fs₁ pairs) (hs : s ∉ names)
    (h' : Stamped loc (fun x => ∃ t ∈ names, DirsBelow fs₁ (dir ++ [t]) x) fs₁ fs₂ pairs') :
    Stamped loc (fun x => ∃ t ∈ s :: names, DirsBelow fs (dir ++ [t]) x) fs fs₂ (pairs ++ pairs') := by
  refine (h.union h' fun x hx => ?_).congr fun x => ?_
  · rintro ⟨t, ht, htx⟩
    exact hs (child_eq_of_isPrefix hx.1 htx.1 ▸ ht)
  · simp only [h.toRestocked.dirsBelow, List.mem_cons, exists_eq_or_imp]

/-- All that lies deeper and then the assets of the directory itself. -/
theorem around {names : List String} (h : Stamped loc (fun x => ∃ s ∈ names, DirsBelow fs (dir ++ [s]) x) fs fs₁ pairs)
    (hw : fs.WellFormed) (hd : fs.at? dir = some .directory)
    (hnames : ∀ s, s ∈ names ↔ fs.at? (dir ++ [s]) = some .directory) (hstock : Restocked (· = dir) fs₁ fs₂)
    (hshelf : shelfOf fs₂ dir = (Shelf.stampAll (assetsIn fs dir) (shelfOf fs₁ dir)).1)
    (hpairs : ∀ q, q ∈ pairs' ↔ ∃ n m, (n, m) ∈ (Shelf.stampAll (assetsIn fs dir) (shelfOf fs₁ dir)).2 ∧
      q = recorded loc dir (n, m)) : Stamped loc (DirsBelow fs dir) fs fs₂ (pairs ++ pairs') := by
  have happart : ∀ x, (∃ s ∈ names, DirsBelow fs (dir ++ [s]) x) → x ≠ dir := by
    rintro x ⟨s, -, hx, -⟩ rfl
    exact not_append_isPrefix hx
  have hsame := assetsIn_congr (h.toRestocked.shelfOf_apart fun hc => happart dir hc rfl)
  have hone : Stamped loc (· = dir) fs₁ fs₂ pairs' := by
    refine ⟨hstock, ?_, fun q => ?_⟩
    · rintro d rfl
      rw [hshelf, hsame]
    · rw [hpairs]
      constructor
      · rintro ⟨n, m, hnm, rfl⟩
        exact ⟨dir, n, m, rfl, by rwa [hsame], rfl⟩
      · rintro ⟨d, n, m, rfl, hnm, rfl⟩
        exact ⟨n, m, by rwa [hsame] at hnm, rfl⟩
  refine (h.union hone fun x hx hc => happart x hx hc).congr fun x => ?_
  rw [dirsBelow_iff hw hd]
  exact or_congr_left (exists_congr fun s => and_congr_left fun _ => hnames s)

end Stamped

theorem filter_assets (hw : fs.WellFormed) (hp : p.text ≠ "")
    (hlink : ∀ s target, fs.at? (dir ++ [s]) ≠ some (.link target)) :
    (((fs.children dir).map fun n => (⟨n, p.child n, isDirectoryAt fs (dir ++ [n])⟩ : Entry)).filter fun e =>
      !e.isDirectory && !isPage e.path) = (assetsIn fs dir).map fun n => ⟨n, p.child n, false⟩ := by
  have hasset : ∀ n ∈ fs.children dir, (!isDirectoryAt fs (dir ++ [n]) && !isPage (p.child n)) =
      (shelfOf fs dir n).isSome := by
    intro n hn
    have hpage := isPage_child (isName_of_mem_children hw hn) hp
    obtain ⟨node, hnode⟩ := Option.isSome_iff_exists.1 (mem_children.1 hn)
    rw [isDirectoryAt, shelfOf, hnode]
    by_cases hpn : IsPageName n
    · simp [hpn, hpage.2 hpn]
    · rw [if_neg hpn, Bool.eq_false_iff.2 fun hc => hpn (hpage.1 hc)]
      cases node with
      | file bytes => rfl
      | directory => rfl
      | link target => exact absurd hnode (hlink n target)
  rw [List.filter_map, assetsIn]
  have hfilter : (fs.children dir).filter ((fun e : Entry => !e.isDirectory && !isPage e.path) ∘
      fun n => ⟨n, p.child n, isDirectoryAt fs (dir ++ [n])⟩) =
      (fs.children dir).filter fun n => (shelfOf fs dir n).isSome := List.filter_congr hasset
  rw [hfilter]
  refine List.map_congr_left fun n hn => ?_
  have hdir := hasset n (List.mem_of_mem_filter hn)
  rw [(List.mem_filter.1 hn).2, Bool.and_eq_true, Bool.not_eq_true'] at hdir
  rw [hdir.1]

/-- No directory at or below the location is nested as deeply as that. -/
def WithinDepth (fs : FileSystem) (dir : Location) (k : Nat) : Prop :=
  ∀ x, DirsBelow fs dir x → x.length < dir.length + k

theorem withinDepth (h : fs.WellFormed) (dir : Location) : WithinDepth fs dir fs.maxDepth := by
  rintro x ⟨-, hx⟩
  have hlen := h.length_le (show (fs.at? x).isSome by rw [hx]; rfl)
  have hdepth : fs.entries.length + 1 ≤ fs.maxDepth := Nat.le_mul_of_pos_left _ (Nat.succ_pos maxLinks)
  omega

/-- What the first pass does below each of some directories beside one another, it does below all of them. -/
theorem stampDirs_ok (hbelow : ∀ {rel : List String} {w w' : World} {pairs : List (String × String)},
      Region root loc w → w.files.at? (loc ++ rel) = some .directory →
      stampBelow root k (root.descend rel) w = .ok pairs w' →
      w'.cwd = w.cwd ∧ Stamped loc (DirsBelow w.files (loc ++ rel)) w.files w'.files pairs)
    {names : List String} (hr : Region root loc w) (hdup : names.Nodup)
    (hdirs : ∀ s ∈ names, w.files.at? (loc ++ rel ++ [s]) = some .directory)
    {lists : List (List (String × String))}
    (h : names.mapM (fun s => stampBelow root k ((root.descend rel).child s)) w = .ok lists w') :
    w'.cwd = w.cwd ∧ Stamped loc (fun x => ∃ s ∈ names, DirsBelow w.files (loc ++ rel ++ [s]) x) w.files w'.files
      lists.flatten := by
  induction names generalizing w lists with
  | nil =>
      cases h
      exact ⟨rfl, .noDirs hr.wellFormed loc _⟩
  | cons s names ih =>
      rw [List.mapM_cons] at h
      obtain ⟨pairs, w₁, hfirst, hmore⟩ := bind_eq_ok h
      obtain ⟨lists', w₂, hall, hmore⟩ := bind_eq_ok hmore
      cases hmore
      obtain ⟨hs, hdup⟩ := List.nodup_cons.1 hdup
      have hd := hdirs s (by simp)
      rw [List.append_assoc] at hd
      rw [← descend_append] at hfirst
      obtain ⟨hcwd, hst⟩ := hbelow hr hd hfirst
      rw [← List.append_assoc] at hst
      obtain ⟨hcwd', hst'⟩ := ih (hr.restocked hcwd hst.toRestocked) hdup
        (fun t ht => hst.directory.2 (hdirs t (List.mem_cons_of_mem s ht))) hall
      exact ⟨hcwd'.trans hcwd, hst.oneMore hs hst'⟩

theorem isName_of_assets (h : fs.WellFormed) : ∀ n ∈ assetsIn fs dir, IsName n ∧ ¬ IsPageName n := fun _ hn =>
  ⟨isName_of_mem_assetsIn h hn,
    (shelfOf_eq_some.1 (Option.isSome_iff_exists.1 (mem_assetsIn.1 hn)).choose_spec).1⟩

theorem mem_subdirs {s : String} : s ∈ (fs.children dir).filter ((fun e : Entry => e.isDirectory) ∘
    fun n => ⟨n, p.child n, isDirectoryAt fs (dir ++ [n])⟩) ↔ fs.at? (dir ++ [s]) = some .directory := by
  rw [List.mem_filter, mem_children]
  exact ⟨fun h => isDirectoryAt_iff.1 h.2, fun h => ⟨by rw [h]; rfl, isDirectoryAt_iff.2 h⟩⟩

theorem nodup_subdirs : ((fs.children dir).filter ((fun e : Entry => e.isDirectory) ∘
    fun n => ⟨n, p.child n, isDirectoryAt fs (dir ++ [n])⟩)).Nodup :=
  (sorted_nodup (children_sorted _ _)).filter _

/-- The induction is on the nesting that is left. The files of a directory come after all that lies
deeper, which is nothing to them. -/
theorem stampBelow_ok (k : Nat) {rel : List String} {w w' : World} {pairs : List (String × String)}
    (hr : Region root loc w) (hd : w.files.at? (loc ++ rel) = some .directory)
    (h : stampBelow root k (root.descend rel) w = .ok pairs w') :
    w'.cwd = w.cwd ∧ Stamped loc (DirsBelow w.files (loc ++ rel)) w.files w'.files pairs := by
  induction k generalizing rel w w' pairs with
  | zero => cases h
  | succ k ih =>
      have hleads := hr.leadsTo_descend hd
      obtain ⟨entries, w₀, hentries, hmore⟩ := bind_eq_ok h
      rw [entriesOf_eq hr.wellFormed hleads hr.not_link] at hentries
      cases hentries
      obtain ⟨lists, w₁, hbelow, hmore⟩ := bind_eq_ok hmore
      obtain ⟨rs, w₂, hfiles, hmore⟩ := bind_eq_ok hmore
      cases hmore
      rw [List.filter_map, List.mapM_map] at hbelow
      obtain ⟨hcwd, hst⟩ := stampDirs_ok ih hr nodup_subdirs (fun s hs => mem_subdirs.1 hs) hbelow
      rw [filter_assets hr.wellFormed hleads.1 hr.not_link] at hfiles
      obtain ⟨hstock, hcwd', hshelf, hrs⟩ := stampFiles_ok (hr.restocked hcwd hst.toRestocked)
        (hst.directory.2 hd) (isName_of_assets hr.wellFormed) hfiles
      refine ⟨hcwd'.trans hcwd, hst.around hr.wellFormed hd (fun s => mem_subdirs) hstock hshelf fun q => ?_⟩
      rw [hrs, List.mem_map]
      constructor
      · rintro ⟨⟨n, m⟩, hnm, rfl⟩
        exact ⟨n, m, hnm, rfl⟩
      · rintro ⟨n, m, hnm, rfl⟩
        exact ⟨(n, m), hnm, rfl⟩

end SiteTree.Asset
