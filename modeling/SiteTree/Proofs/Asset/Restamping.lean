import SiteTree.Proofs.Asset.Stability

/-!
The first pass twice. In whatever order the assets of each directory have their turns, a pass that
ends well leaves every asset under a name that is its address, though some may have taken the place
of others. Another pass, in the same order or not, then finds nothing to do.
-/

namespace SiteTree.Asset

open SiteTree.Action FileSystem SiteTree.Path Text

variable {fs fs' fs₁ fs₂ : FileSystem} {loc : Location} {root p : Path} {rel : List String} {D E : Location → Prop}
  {w w' : World} {pairs : List (String × String)} {renames : Renames} {order : Order}

/-- The assets of the directories have changed, and each has its address for a name. -/
structure Settled (D : Location → Prop) (fs fs' : FileSystem) : Prop extends Restocked D fs fs' where
  addressed : ∀ d, D d → ∀ n bytes, shelfOf fs' d n = some bytes → Addressed n bytes

namespace Settled

theorem refl (h : fs.WellFormed) : Settled (fun _ => False) fs fs := ⟨.refl h _, nofun⟩

theorem congr (h : Settled D fs fs') (hDE : ∀ d, D d ↔ E d) : Settled E fs fs' := by
  obtain rfl : D = E := funext fun d => propext (hDE d)
  exact h

/-- What has settled in some directories is left alone by what goes on in others. -/
theorem union (h : Settled D fs fs₁) (h' : Settled E fs₁ fs₂) (hd : ∀ d, D d → ¬ E d) :
    Settled (fun d => D d ∨ E d) fs fs₂ := by
  refine ⟨(h.toRestocked.weaken fun _ => .inl).trans (h'.toRestocked.weaken fun _ => .inr), ?_⟩
  rintro d (hD | hE) n bytes hb
  · rw [h'.toRestocked.shelfOf_apart (hd d hD)] at hb
    exact h.addressed d hD n bytes hb
  · exact h'.addressed d hE n bytes hb

theorem namesAddressed (h : Settled (DirsBelow fs loc) fs fs') : NamesAddressed fs' loc := by
  intro dir name bytes hdir hpage hat
  have hd := h.directory.1 (h.wellFormed.parent (show (fs'.at? (dir ++ [name])).isSome by rw [hat]; rfl))
  exact h.addressed dir ⟨hdir, hd⟩ name bytes (shelfOf_eq_some.2 ⟨hpage, hat⟩)

end Settled

/-- The assets of one directory settle when each of them has had its turn. -/
theorem stampFiles_settle (hr : Region root loc w) (hd : w.files.at? (loc ++ rel) = some .directory)
    {turns : List String} (hturns : ∀ n, n ∈ turns ↔ n ∈ assetsIn w.files (loc ++ rel))
    {rs : List (Option (String × String))}
    (h : (turns.map fun n => ⟨n, (root.descend rel).child n, false⟩).mapM (stampFile root) w = .ok rs w') :
    w'.cwd = w.cwd ∧ Settled (· = loc ++ rel) w.files w'.files := by
  obtain ⟨hstock, hcwd, hshelf, -⟩ := stampFiles_ok hr hd
    (fun n hn => isName_of_assets hr.wellFormed n ((hturns n).1 hn)) h
  refine ⟨hcwd, hstock, ?_⟩
  rintro d rfl n bytes hb
  rw [hshelf] at hb
  apply Shelf.stampAll_addressed (fun n hn => isName_of_mem_assetsIn hr.wellFormed ((hturns n).1 hn)) _ hb
  intro m c hc
  exact .inl ((hturns m).2 (mem_assetsIn.2 (by rw [hc]; rfl)))

/-- The directories in a directory settle one after another. -/
theorem stampDirs_settle {f : Path → Action (List (String × String))}
    (hbelow : ∀ {rel : List String} {w w' : World} {pairs : List (String × String)},
      Region root loc w → w.files.at? (loc ++ rel) = some .directory → f (root.descend rel) w = .ok pairs w' →
      w'.cwd = w.cwd ∧ Settled (DirsBelow w.files (loc ++ rel)) w.files w'.files)
    {names : List String} (hr : Region root loc w) (hdup : names.Nodup)
    (hdirs : ∀ s ∈ names, w.files.at? (loc ++ rel ++ [s]) = some .directory)
    {lists : List (List (String × String))} (h : names.mapM (fun s => f ((root.descend rel).child s)) w = .ok lists w') :
    w'.cwd = w.cwd ∧ Settled (fun x => ∃ s ∈ names, DirsBelow w.files (loc ++ rel ++ [s]) x) w.files w'.files := by
  induction names generalizing w lists with
  | nil =>
      cases h
      exact ⟨rfl, (Settled.refl hr.wellFormed).congr fun x => by simp⟩
  | cons s names ih =>
      obtain ⟨hs, hdup⟩ := List.nodup_cons.1 hdup
      rw [List.mapM_cons] at h
      obtain ⟨pairs, w₁, hfirst, hmore⟩ := bind_eq_ok h
      obtain ⟨lists', w₂, hall, hmore⟩ := bind_eq_ok hmore
      cases hmore
      have hd := hdirs s (by simp)
      rw [List.append_assoc] at hd
      rw [← descend_append] at hfirst
      obtain ⟨hcwd, hone⟩ := hbelow hr hd hfirst
      rw [← List.append_assoc] at hone
      obtain ⟨hcwd', hrest⟩ := ih (hr.restocked hcwd hone.toRestocked) hdup
        (fun t ht => hone.directory.2 (hdirs t (List.mem_cons_of_mem s ht))) hall
      refine ⟨hcwd'.trans hcwd, (hone.union hrest ?_).congr fun x => ?_⟩
      · rintro x hx ⟨t, ht, htx⟩
        exact hs (child_eq_of_isPrefix hx.1 htx.1 ▸ ht)
      · simp only [hone.toRestocked.dirsBelow, List.mem_cons, exists_eq_or_imp]

/-- What can be listed is a directory. -/
theorem found_of_list {cwd : Location} {names : List String} (h : fs.list cwd p = .ok names) :
    ∃ loc, fs.found cwd p = .ok (loc, .directory) := by
  rw [list] at h
  cases hf : fs.found cwd p with
  | error cause => rw [hf] at h; cases h
  | ok place =>
      obtain ⟨loc, node⟩ := place
      rw [hf] at h
      cases node with
      | directory => exact ⟨loc, rfl⟩
      | file | link => cases h

namespace Order

/-- The induction is on the nesting that is left. The assets of a directory are listed before anything
below it changes, which is nothing to them. -/
theorem stampBelow_settles (order : Order) (k : Nat) {rel : List String} {w w' : World}
    {pairs : List (String × String)} (hr : Region root loc w) (hd : w.files.at? (loc ++ rel) = some .directory)
    (h : order.stampBelow root k (root.descend rel) w = .ok pairs w') :
    w'.cwd = w.cwd ∧ Settled (DirsBelow w.files (loc ++ rel)) w.files w'.files := by
  induction k generalizing rel w w' pairs with
  | zero => cases h
  | succ k ih =>
      have hleads := hr.leadsTo_descend hd
      obtain ⟨entries, w₀, hentries, hmore⟩ := bind_eq_ok h
      rw [entriesOf_eq hr.wellFormed hleads hr.not_link] at hentries
      cases hentries
      obtain ⟨lists, w₁, hbelow, hmore⟩ := bind_eq_ok hmore
      obtain ⟨rs, w₂, hfiles, hmore⟩ := bind_eq_ok hmore
      cases hmore
      rw [List.filter_map, List.mapM_map] at hbelow
      obtain ⟨hcwd, hdeep⟩ := stampDirs_settle ih hr nodup_subdirs (fun s hs => mem_subdirs.1 hs) hbelow
      have hapart : ∀ {names : List String} x, (∃ s ∈ names, DirsBelow w.files (loc ++ rel ++ [s]) x) →
          x ≠ loc ++ rel := by
        rintro names x ⟨s, -, hx, -⟩ rfl
        exact not_append_isPrefix hx
      have hsame : assetsIn w₁.files (loc ++ rel) = assetsIn w.files (loc ++ rel) :=
        assetsIn_congr (hdeep.toRestocked.shelfOf_apart fun hx => hapart _ hx rfl)
      obtain ⟨turns, hturns, heq⟩ := exists_of_perm_map (order.assets_perm (root.descend rel)
        ((assetsIn w.files (loc ++ rel)).map fun n => ⟨n, (root.descend rel).child n, false⟩))
      rw [filter_assets hr.wellFormed hleads.1 hr.not_link, heq] at hfiles
      obtain ⟨hcwd', hhere⟩ := stampFiles_settle (hr.restocked hcwd hdeep.toRestocked) (hdeep.directory.2 hd)
        (fun n => by rw [hsame]; exact hturns.mem_iff) hfiles
      refine ⟨hcwd'.trans hcwd, (hdeep.union hhere hapart).congr fun x => ?_⟩
      rw [dirsBelow_iff hr.wellFormed hd]
      exact or_congr_left (exists_congr fun s => and_congr_left fun _ => mem_subdirs)

theorem stampTree_found (h : order.stampTree root w = .ok renames w') :
    ∃ loc, w.files.found w.cwd root = .ok (loc, .directory) := by
  rw [stampTree, get_bind] at h
  obtain ⟨pairs, w₁, hbelow, -⟩ := bind_eq_ok h
  cases hk : w.files.maxDepth with
  | zero =>
      rw [hk] at hbelow
      cases hbelow
  | succ k =>
      rw [hk] at hbelow
      obtain ⟨entries, w₂, hentries, -⟩ := bind_eq_ok hbelow
      obtain ⟨names, w₃, hlist, -⟩ := bind_eq_ok hentries
      obtain ⟨-, hnames⟩ := look_ok hlist
      exact found_of_list hnames

theorem stampTree_settles (hr : Region root loc w) (h : order.stampTree root w = .ok renames w') :
    w'.cwd = w.cwd ∧ Settled (DirsBelow w.files loc) w.files w'.files := by
  rw [stampTree, get_bind] at h
  obtain ⟨pairs, w₁, hbelow, hrest⟩ := bind_eq_ok h
  cases hrest
  have hd : w.files.at? (loc ++ []) = some .directory := by rw [List.append_nil]; exact hr.leadsTo.directory
  have hsettled := order.stampBelow_settles w.files.maxDepth hr hd hbelow
  rwa [List.append_nil] at hsettled

end Order

/-- After a first pass that ends well, in the order of the names or another, a second one renames
nothing, whatever its order: it ends well with nothing in its table and changes no file. -/
theorem stampTree_again (hw : w.files.WellFormed)
    (hfree : ∀ loc, w.files.found w.cwd root = .ok (loc, .directory) → w.files.LinkFree loc) :
    Order.byName.stampTree root = stampTree root ∧ ∀ (order again : Order) (renames : Renames) (w' : World),
      order.stampTree root w = .ok renames w' → ∃ w'', again.stampTree root w' = .ok [] w'' ∧ w''.files = w'.files := by
  refine ⟨Order.byName_stampTree root, fun order again renames w' hrun => ?_⟩
  obtain ⟨loc, hloc⟩ := Order.stampTree_found hrun
  have hr : Region root loc w := ⟨hw, leadsTo_iff.2 hloc, hfree loc hloc⟩
  obtain ⟨hcwd, hsettled⟩ := Order.stampTree_settles hr hrun
  obtain ⟨w'', hagain, hfiles, -⟩ := again.stampTree_addressed (hr.restocked hcwd hsettled.toRestocked)
    hsettled.namesAddressed
  exact ⟨w'', hagain, hfiles⟩

/-- A hidden file, a page, and in a directory below a file whose new name another one has and a file
whose name ends in a dot. -/
def crowded : World :=
  ⟨⟨[(["r"], .directory), (["r", ".site"], .file "s".toUTF8), (["r", "index.html"], .file "p".toUTF8),
    (["r", "img"], .directory), (["r", "img", "a"], .file "x".toUTF8),
    (["r", "img", "a-2d711642"], .file "y".toUTF8), (["r", "img", "b."], .file "x".toUTF8)]⟩, [], []⟩

theorem crowded_again : ∃ renames w', stampTree ⟨"r"⟩ crowded = .ok renames w' ∧ renames.length = 3 ∧
    w'.files.at? ["r", "img", "a-2d711642"] = some (.file "x".toUTF8) ∧
    ∃ w'', Order.backwards.stampTree ⟨"r"⟩ w' = .ok [] w'' ∧ w''.files = w'.files := by
  have hroot : crowded.files.found crowded.cwd ⟨"r"⟩ = .ok (["r"], .directory) := by decide +kernel
  have hfree : ∀ loc, crowded.files.found crowded.cwd ⟨"r"⟩ = .ok (loc, .directory) → crowded.files.LinkFree loc := by
    intro loc hloc
    rw [hroot] at hloc
    cases hloc
    decide +kernel
  obtain ⟨renames, w', hrun, h⟩ := yields_iff.1 (show yields (stampTree ⟨"r"⟩) crowded (fun renames w' =>
    renames.length = 3 ∧ w'.files.at? ["r", "img", "a-2d711642"] = some (.file "x".toUTF8)) = true by decide +kernel)
  obtain ⟨hlen, hat⟩ := of_decide_eq_true h
  obtain ⟨hsame, hagain⟩ := stampTree_again (by decide +kernel) hfree
  rw [← hsame] at hrun
  obtain ⟨w'', hidle, hfiles⟩ := hagain .byName .backwards renames w' hrun
  rw [hsame] at hrun
  exact ⟨renames, w', hrun, hlen, hat, w'', hidle, hfiles⟩

end SiteTree.Asset
