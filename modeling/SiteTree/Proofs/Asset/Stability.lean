import SiteTree.Proofs.Asset.Order

/-!
Names as addresses of contents: every asset has one after the first pass, and running both passes
again changes nothing just if every asset has one still.
-/

namespace SiteTree.Asset

open SiteTree.Action FileSystem SiteTree.Path Text

variable {fs fs' : FileSystem} {dir loc : Location} {root : Path} {n : String} {rel : List String}
  {bytes : ByteArray} {w w' : World} {pairs : List (String × String)} {renames : Renames}

/-- Every file below the location that is no page has a name that carries the hash of its content. -/
def NamesAddressed (fs : FileSystem) (loc : Location) : Prop :=
  ∀ dir name bytes, loc <+: dir → ¬ IsPageName name → fs.at? (dir ++ [name]) = some (.file bytes) →
    Addressed name bytes

theorem namesAddressed_iff : NamesAddressed fs loc ↔ ∀ e ∈ fs.entries, loc <+: e.1.dropLast →
    ¬ IsPageName (e.1.getLastD "") → ∀ bytes ∈ fileAt? fs e.1, Addressed (e.1.getLastD "") bytes := by
  constructor
  · intro h e _ hloc hpage bytes hb
    have hat := fileAt?_eq_some.1 hb
    rcases List.eq_nil_or_concat' e.1 with hnil | ⟨dir, name, he⟩
    · rw [hnil] at hat
      cases hat
    · rw [he] at hat hloc hpage ⊢
      simp only [List.dropLast_concat, List.getLastD_concat] at hloc hpage ⊢
      exact h dir name bytes hloc hpage hat
  · intro h dir name bytes hloc hpage hat
    obtain ⟨e, he, hx⟩ := entry_of_file hat
    have hall := h e he
    rw [hx] at hall
    simp only [List.dropLast_concat, List.getLastD_concat] at hall
    exact hall hloc hpage bytes (fileAt?_eq_some.2 hat)

instance (fs : FileSystem) (loc : Location) : Decidable (NamesAddressed fs loc) :=
  decidable_of_iff' _ namesAddressed_iff

theorem NamesAddressed.shelf (h : NamesAddressed fs loc) (hd : loc <+: dir) :
    ∀ n bytes, shelfOf fs dir n = some bytes → Addressed n bytes := fun n bytes hb =>
  h dir n bytes hd (shelfOf_eq_some.1 hb).1 (shelfOf_eq_some.1 hb).2

theorem Stamped.namesAddressed (h : Stamped loc (DirsBelow fs loc) fs fs' pairs) (hw : fs.WellFormed) :
    NamesAddressed fs' loc := by
  intro dir name bytes hdir hpage hat
  have hd := h.directory.1 (h.wellFormed.parent (show (fs'.at? (dir ++ [name])).isSome by rw [hat]; rfl))
  have hshelf := shelfOf_eq_some.2 ⟨hpage, hat⟩
  rw [h.shelf dir ⟨hdir, hd⟩] at hshelf
  refine Shelf.stampAll_addressed (fun _ => isName_of_mem_assetsIn hw) (fun x b hb => .inl ?_) hshelf
  rw [mem_assetsIn, hb]
  rfl

theorem NamesAddressed.of_stamped (h : Stamped loc (DirsBelow fs loc) fs fs' []) (hw : fs.WellFormed) :
    NamesAddressed fs loc := by
  intro dir name bytes hdir hpage hat
  have hd := hw.parent (show (fs.at? (dir ++ [name])).isSome by rw [hat]; rfl)
  have hnil : (Shelf.stampAll (assetsIn fs dir) (shelfOf fs dir)).2 = [] := by
    rw [List.eq_nil_iff_forall_not_mem]
    rintro ⟨n, m⟩ hnm
    have hmem := (h.renames _).2 ⟨dir, n, m, ⟨hdir, hd⟩, hnm, rfl⟩
    cases hmem
  have hshelf : shelfOf fs dir name = some bytes := shelfOf_eq_some.2 ⟨hpage, hat⟩
  refine (Shelf.stampAll_snd_eq_nil fun _ => isName_of_mem_assetsIn hw).1 hnil name ?_ bytes hshelf
  rw [mem_assetsIn, hshelf]
  rfl

theorem ofPairs_eq_nil {α : Type} {pairs : List (String × α)} : Table.ofPairs pairs = [] ↔ pairs = [] := by
  have hinsert : ∀ (k : String) (v : α) (t : Table α), Table.insert k v t ≠ [] := by
    intro k v t
    rw [← List.isEmpty_eq_false_iff]
    cases t with
    | nil => rfl
    | cons a t =>
        rw [Table.insert]
        split
        · rfl
        · split <;> rfl
  refine ⟨fun h => ?_, fun h => by rw [h]; rfl⟩
  rcases List.eq_nil_or_concat' pairs with rfl | ⟨l, q, rfl⟩
  · rfl
  · rw [Table.ofPairs, List.foldl_append] at h
    exact absurd h (hinsert _ _ _)

/-- The files and the working directory are as they were. -/
def Untouched (w w' : World) : Prop := w'.files = w.files ∧ w'.cwd = w.cwd

theorem Region.untouched (hr : Region root loc w) (h : Untouched w w') : Region root loc w' := hr.congr h.1 h.2

theorem mapM_untouched {α β : Type} {l : List β} {g : β → Action α} {v : α}
    (h : ∀ b ∈ l, ∀ w₁, Untouched w w₁ → ∃ w₂, g b w₁ = .ok v w₂ ∧ Untouched w₁ w₂) :
    ∃ w', l.mapM g w = .ok (l.map fun _ => v) w' ∧ Untouched w w' := by
  induction l generalizing w with
  | nil => exact ⟨w, rfl, rfl, rfl⟩
  | cons b l ih =>
      obtain ⟨w₁, hone, hf, hc⟩ := h b (by simp) w ⟨rfl, rfl⟩
      obtain ⟨w₂, hall, hf', hc'⟩ := @ih w₁ fun c hmem w₂ hw₂ =>
        h c (List.mem_cons_of_mem b hmem) w₂ ⟨hw₂.1.trans hf, hw₂.2.trans hc⟩
      refine ⟨w₂, ?_, hf'.trans hf, hc'.trans hc⟩
      rw [List.mapM_cons, bind_ok hone, bind_ok hall]
      rfl

theorem stampFile_addressed (hr : Region root loc w) (hd : w.files.at? (loc ++ rel) = some .directory)
    (hn : IsName n) (hat : w.files.at? (loc ++ rel ++ [n]) = some (.file bytes)) (ha : Addressed n bytes) {b : Bool} :
    ∃ w', stampFile root ⟨n, (root.descend rel).child n, b⟩ w = .ok none w' ∧ Untouched w w' := by
  have hread : readBytes ((root.descend rel).child n) w = .ok bytes w := by
    rw [readBytes, look_eq, (hr.readFile_child hd hn).2 hat]
  rw [stampFile, bind_ok hread, (stamp?_eq_none hn).2 ha]
  exact ⟨_, rfl, rfl, rfl⟩

theorem stampFiles_addressed (hr : Region root loc w) (hd : w.files.at? (loc ++ rel) = some .directory)
    (ha : NamesAddressed w.files (loc ++ rel)) {turns : List String} (hturns : ∀ n ∈ turns, n ∈ assetsIn w.files (loc ++ rel)) :
    ∃ w', (turns.map fun n => ⟨n, (root.descend rel).child n, false⟩).mapM (stampFile root) w =
      .ok (turns.map fun _ => none) w' ∧ Untouched w w' := by
  rw [List.mapM_map]
  refine mapM_untouched fun n hn w₁ hw₁ => ?_
  have hmem := hturns n hn
  obtain ⟨bytes, hb⟩ := Option.isSome_iff_exists.1 (mem_assetsIn.1 hmem)
  have hat : w₁.files.at? (loc ++ rel ++ [n]) = some (.file bytes) := by
    rw [hw₁.1]
    exact (shelfOf_eq_some.1 hb).2
  exact stampFile_addressed (hr.untouched hw₁) (by rw [hw₁.1, hd]) (isName_of_mem_assetsIn hr.wellFormed hmem) hat
    (ha.shelf List.prefix_rfl n bytes hb)

/-- Where every name is an address already, the first pass finds nothing to do, in whatever order. -/
theorem Order.stampBelow_addressed (order : Order) (k : Nat) {rel : List String} {w : World} (hr : Region root loc w)
    (hd : w.files.at? (loc ++ rel) = some .directory) (hdepth : WithinDepth w.files (loc ++ rel) k)
    (ha : NamesAddressed w.files (loc ++ rel)) :
    ∃ w', order.stampBelow root k (root.descend rel) w = .ok [] w' ∧ Untouched w w' := by
  induction k generalizing rel w with
  | zero => exact absurd (hdepth _ ⟨List.prefix_rfl, hd⟩) (by simp)
  | succ k ih =>
      have hleads := hr.leadsTo_descend hd
      have hentries := entriesOf_eq hr.wellFormed hleads hr.not_link
      have hbelow : ∀ s ∈ (w.files.children (loc ++ rel)).filter fun s => isDirectoryAt w.files (loc ++ rel ++ [s]),
          ∀ w₁, Untouched w w₁ → ∃ w₂,
            order.stampBelow root k ((root.descend rel).child s) w₁ = .ok [] w₂ ∧ Untouched w₁ w₂ := by
        intro s hs w₁ hw₁
        have hsub := isDirectoryAt_iff.1 (List.mem_filter.1 hs).2
        have hpre : ∀ {x}, loc ++ (rel ++ [s]) <+: x → loc ++ rel <+: x := fun hx =>
          (List.prefix_append _ [s]).trans (by rwa [List.append_assoc])
        rw [← descend_append]
        refine ih (hr.untouched hw₁) (by rw [hw₁.1, ← List.append_assoc, hsub]) (fun x hx => ?_)
          fun dir name bytes hdir hpage hat => ha dir name bytes (hpre hdir) hpage (hw₁.1 ▸ hat)
        have hlen := hdepth x ⟨hpre hx.1, hw₁.1 ▸ hx.2⟩
        simp only [List.length_append, List.length_singleton] at hlen ⊢
        omega
      obtain ⟨w₁, hdirs, hw₁⟩ := mapM_untouched hbelow
      obtain ⟨turns, hturns, heq⟩ := exists_of_perm_map (order.assets_perm (root.descend rel)
        ((assetsIn w.files (loc ++ rel)).map fun n => ⟨n, (root.descend rel).child n, false⟩))
      obtain ⟨w₂, hfiles, hw₂⟩ := stampFiles_addressed (hr.untouched hw₁) (by rw [hw₁.1, hd]) (hw₁.1 ▸ ha)
        (fun n hn => hw₁.1 ▸ hturns.mem_iff.1 hn)
      refine ⟨w₂, ?_, hw₂.1.trans hw₁.1, hw₂.2.trans hw₁.2⟩
      rw [Order.stampBelow, bind_ok hentries, List.filter_map, List.mapM_map]
      refine (bind_ok hdirs).trans ?_
      rw [filter_assets hr.wellFormed hleads.1 hr.not_link, heq, bind_ok hfiles]
      have hnone : (turns.map fun _ => (none : Option (String × String))).filterMap id = [] := by simp
      have hflat : (((w.files.children (loc ++ rel)).filter fun s => isDirectoryAt w.files (loc ++ rel ++ [s])).map
          fun _ => ([] : List (String × String))).flatten = [] := by simp
      rw [hnone, hflat]
      rfl

theorem Order.stampTree_addressed (order : Order) (hr : Region root loc w) (ha : NamesAddressed w.files loc) :
    ∃ w', order.stampTree root w = .ok [] w' ∧ Untouched w w' := by
  have hd : w.files.at? (loc ++ []) = some .directory := by rw [List.append_nil]; exact hr.leadsTo.directory
  rw [← List.append_nil loc] at ha
  obtain ⟨w', hstamp, hw'⟩ := order.stampBelow_addressed w.files.maxDepth hr hd (withinDepth hr.wellFormed _) ha
  refine ⟨w', ?_, hw'⟩
  rw [Order.stampTree, get_bind]
  exact (bind_ok hstamp).trans rfl

/-- A second run finds nothing to do just if every name is the address of its content. -/
theorem runPasses_idle_iff (hr : Region root loc w) :
    (∃ w', runPasses root w = .ok [] w' ∧ w'.files = w.files) ↔ NamesAddressed w.files loc := by
  constructor
  · rintro ⟨w', hrun, -⟩
    obtain ⟨pairs, w₁, hpairs, -, -, hst, -⟩ := runPasses_ok hr hrun
    rw [ofPairs_eq_nil.1 hpairs.symm] at hst
    exact .of_stamped hst hr.wellFormed
  · intro ha
    obtain ⟨w', htree, hw'⟩ := Order.byName.stampTree_addressed hr ha
    rw [Order.byName_stampTree] at htree
    exact ⟨w', (bind_ok htree).trans rfl, hw'.1⟩

/-- After both passes each asset has the name that its content had an address by after the first
one. It is an address still just if rewriting has kept the hash, and only if all of them are does a
second run find nothing to do. -/
theorem runPasses_addressed_iff (hw : w.files.WellFormed)
    (hroot : w.files.found w.cwd root = .ok (loc, .directory)) (hfree : w.files.LinkFree loc)
    (hrun : runPasses root w = .ok renames w') :
    ((∃ w'', runPasses root w' = .ok [] w'' ∧ w''.files = w'.files) ↔ NamesAddressed w'.files loc) ∧
      ∃ w₁, stampTree root w = .ok renames w₁ ∧ NamesAddressed w₁.files loc ∧
        (∀ x, loc <+: x → w'.files.at? x = (w₁.files.at? x).map (rewriteNode renames)) ∧
        ∀ dir name bytes, loc <+: dir → ¬ IsPageName name → w₁.files.at? (dir ++ [name]) = some (.file bytes) →
          (Addressed name (rewritten renames bytes) ↔
            fingerprint (rewritten renames bytes) = fingerprint bytes) := by
  have hr : Region root loc w := ⟨hw, leadsTo_iff.2 hroot, hfree⟩
  obtain ⟨pairs, w₁, -, hstamp, hcwd, hst, hred⟩ := runPasses_ok hr hrun
  obtain ⟨-, -, hcwd', -⟩ := stampTree_ok hr hstamp
  have hr₁ := hr.restocked hcwd' hst.toRestocked
  have hr' := hred.region (hcwd.trans hcwd'.symm) hr₁
  have hnames := hst.namesAddressed hw
  refine ⟨runPasses_idle_iff hr', w₁, hstamp, hnames, hred.text, ?_⟩
  intro dir name bytes hdir hpage hat
  have ha := hnames dir name bytes hdir hpage hat
  refine ⟨fun h => h.unique ha, fun h => ?_⟩
  rw [Addressed, h]
  exact ha

/-- A picture that nothing refers to. -/
def loose : World := ⟨⟨[(["r"], .directory), (["r", "b.svg"], .file "x".toUTF8)]⟩, [], []⟩

theorem loose_settles : ∃ renames w', runPasses ⟨"r"⟩ loose = .ok renames w' ∧ renames ≠ [] ∧
    ∃ w'', runPasses ⟨"r"⟩ w' = .ok [] w'' ∧ w''.files = w'.files := by
  obtain ⟨renames, w', hrun, h⟩ := yields_iff.1 (show yields (runPasses ⟨"r"⟩) loose (fun renames w' =>
    renames ≠ [] ∧ NamesAddressed w'.files ["r"]) = true by decide +kernel)
  obtain ⟨hne, hnames⟩ := of_decide_eq_true h
  have hroot : loose.files.found loose.cwd ⟨"r"⟩ = .ok (["r"], .directory) := by decide +kernel
  exact ⟨renames, w', hrun, hne,
    (runPasses_addressed_iff (by decide +kernel) hroot (by decide +kernel) hrun).1.2 hnames⟩

/-- A stylesheet that refers to the picture. -/
def wired : World :=
  ⟨⟨[(["r"], .directory), (["r", "a.css"], .file "url('b.svg')".toUTF8), (["r", "b.svg"], .file "x".toUTF8)]⟩, [], []⟩

/-- The stylesheet has the hash of its old text in its name, and a second run renames it again. -/
theorem wired_not_settled : wired.files.WellFormed ∧ wired.files.found wired.cwd ⟨"r"⟩ = .ok (["r"], .directory) ∧
    wired.files.LinkFree ["r"] ∧ ∃ renames w', runPasses ⟨"r"⟩ wired = .ok renames w' ∧
      ¬ NamesAddressed w'.files ["r"] ∧ ∀ w'', runPasses ⟨"r"⟩ w' ≠ .ok [] w'' := by
  refine ⟨by decide +kernel, by decide +kernel, by decide +kernel, ?_⟩
  obtain ⟨renames, w', hrun, h⟩ := yields_iff.1 (show yields (runPasses ⟨"r"⟩) wired (fun _ w' =>
    !decide (NamesAddressed w'.files ["r"]) && yields (runPasses ⟨"r"⟩) w' fun again _ => !again.isEmpty) = true by
      decide +kernel)
  obtain ⟨hnames, hagain⟩ := Bool.and_eq_true_iff.1 h
  refine ⟨renames, w', hrun, by simpa using hnames, fun w'' hnil => ?_⟩
  obtain ⟨again, w₂, hsecond, hne⟩ := yields_iff.1 hagain
  rw [hnil] at hsecond
  cases hsecond
  cases hne

end SiteTree.Asset
