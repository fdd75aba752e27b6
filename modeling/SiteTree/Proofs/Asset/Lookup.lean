import SiteTree.Proofs.Asset.Stamping

/-!
The table of renames: what it holds for the address of a file, and that addresses are paths below
the root.
-/

namespace SiteTree

namespace Table

variable {α : Type} {k : String} {v : α} {table : Table α} {pairs : List (String × α)}

theorem get?_foldl_of_not_mem (h : ∀ q ∈ pairs, q.1 ≠ k) (table : Table α) :
    get? k (pairs.foldl (fun table q => insert q.1 q.2 table) table) = get? k table := by
  induction pairs generalizing table with
  | nil => rfl
  | cons q pairs ih =>
      rw [List.foldl_cons, ih (fun r hr => h r (List.mem_cons_of_mem q hr)), get?_insert, if_neg (h q (by simp))]

theorem get?_foldl_of_mem (hmem : (k, v) ∈ pairs) (h : ∀ q ∈ pairs, q.1 = k → q.2 = v) (table : Table α) :
    get? k (pairs.foldl (fun table q => insert q.1 q.2 table) table) = some v := by
  induction pairs generalizing table with
  | nil => cases hmem
  | cons q pairs ih =>
      rw [List.foldl_cons]
      by_cases hrest : ∃ r ∈ pairs, r.1 = k
      · obtain ⟨r, hr, rfl⟩ := hrest
        have hv := h r (List.mem_cons_of_mem q hr) rfl
        exact ih (hv ▸ hr) (fun r hr => h r (List.mem_cons_of_mem q hr)) _
      · have hq : (k, v) = q := (List.mem_cons.1 hmem).resolve_right fun hr => hrest ⟨_, hr, rfl⟩
        subst hq
        rw [get?_foldl_of_not_mem (fun r hr he => hrest ⟨r, hr, he⟩), get?_insert, if_pos rfl]

theorem mem_of_get?_ofPairs (h : get? k (ofPairs pairs) = some v) : (k, v) ∈ pairs := by
  rw [ofPairs] at h
  induction pairs using List.reverseRecOn with
  | nil => cases h
  | append_singleton pairs q ih =>
      rw [List.foldl_append, List.foldl_cons, List.foldl_nil, get?_insert] at h
      split at h
      · next hk =>
        cases h
        subst hk
        simp
      · exact List.mem_append_left _ (ih h)

/-- Where a name has no two values, its value is found. -/
theorem get?_ofPairs (h : ∀ q ∈ pairs, ∀ r ∈ pairs, q.1 = r.1 → q.2 = r.2) :
    get? k (ofPairs pairs) = some v ↔ (k, v) ∈ pairs := by
  refine ⟨mem_of_get?_ofPairs, fun hmem => ?_⟩
  exact get?_foldl_of_mem hmem (fun q hq he => h q hq _ hmem he) []

end Table

namespace Asset

open SiteTree.Action FileSystem SiteTree.Path Text

variable {fs fs' : FileSystem} {dir loc x : Location} {root p : Path} {name n m k : String}
  {rel rel' : List String} {bytes : ByteArray} {D : Location → Prop} {w w' : World}
  {pairs : List (String × String)} {renames : Renames}

/-- No name below the location holds a backslash. -/
def NoBackslash (fs : FileSystem) (loc : Location) : Prop :=
  ∀ rel name, (fs.at? (loc ++ rel ++ [name])).isSome → '\\' ∉ name.toList

theorem noBackslash_iff : NoBackslash fs loc ↔
    ∀ e ∈ fs.entries, loc <+: e.1 → e.1 ≠ loc → '\\' ∉ (e.1.getLastD "").toList := by
  constructor
  · rintro h ⟨x, node⟩ he ⟨l, rfl⟩ hne
    obtain ⟨rel, name, rfl⟩ := (List.eq_nil_or_concat' l).resolve_left fun hl => hne (by simp [hl])
    have hat := at?_isSome_of_mem he (by simp)
    rw [← List.append_assoc] at hat
    have hname := h rel name hat
    simpa [← List.append_assoc] using hname
  · intro h rel name hx
    obtain ⟨e, he, hloc⟩ := mem_of_at?_isSome (by simp) hx
    have hlast := h e he (hloc ▸ by rw [List.append_assoc]; exact List.prefix_append _ _) (by rw [hloc]; simp)
    rw [hloc] at hlast
    simpa using hlast

instance (fs : FileSystem) (loc : Location) : Decidable (NoBackslash fs loc) := decidable_of_iff' _ noBackslash_iff

theorem NoBackslash.names (h : NoBackslash fs loc) (hw : fs.WellFormed) (hx : (fs.at? (loc ++ rel)).isSome) :
    ∀ s ∈ rel, '\\' ∉ s.toList := by
  induction rel using List.reverseRecOn with
  | nil => nofun
  | append_singleton rel s ih =>
      rw [← List.append_assoc] at hx
      intro t ht
      rcases List.mem_append.1 ht with ht | ht
      · exact ih (by rw [hw.parent hx]; rfl) t ht
      · exact List.mem_singleton.1 ht ▸ h rel s hx

theorem mem_glue {c : Char} {l : List (List Char)} (h : c ∈ glue '/' l) : c = '/' ∨ ∃ t ∈ l, c ∈ t := by
  induction l with
  | nil => cases h
  | cons t l ih =>
      by_cases hl : l = []
      · subst hl
        exact .inr ⟨t, by simp, h⟩
      · rw [glue_cons '/' t hl, List.mem_append, List.mem_cons] at h
        rcases h with h | rfl | h
        · exact .inr ⟨t, by simp, h⟩
        · exact .inl rfl
        · exact (ih h).imp_right fun ⟨u, hu, hc⟩ => ⟨u, List.mem_cons_of_mem t hu, hc⟩

theorem mem_glue_of_mem {c : Char} {t : List Char} {l : List (List Char)} (ht : t ∈ l) (hc : c ∈ t) :
    c ∈ glue '/' l := by
  induction l with
  | nil => cases ht
  | cons u l ih =>
      by_cases hl : l = []
      · subst hl
        exact List.mem_singleton.1 ht ▸ hc
      · rw [glue_cons '/' u hl]
        rcases List.mem_cons.1 ht with rfl | ht
        · exact List.mem_append_left _ hc
        · exact List.mem_append_right _ (List.mem_cons_of_mem _ (ih ht))

theorem slashed_eq_self (h : '\\' ∉ p.text.toList) : Ignore.slashed p = p.text := by
  have hmap : p.text.toList.map (fun c => if c = '\\' then '/' else c) = p.text.toList := by
    conv => rhs; rw [← List.map_id p.text.toList]
    refine List.map_congr_left fun c hc => if_neg ?_
    rintro rfl
    exact h hc
  rw [Ignore.slashed, hmap, String.ofList_toList]

/-- Without backslashes the address is the path below the root. -/
theorem addressOf_eq (loc : Location) (h : ∀ s ∈ rel, '\\' ∉ s.toList) :
    addressOf loc (loc ++ rel) = "/".intercalate rel := by
  have hnot : '\\' ∉ glue '/' (rel.map String.toList) := by
    intro hc
    rcases mem_glue hc with hc | ⟨t, ht, hc⟩
    · cases hc
    · obtain ⟨s, hs, rfl⟩ := List.mem_map.1 ht
      exact h s hs hc
  rw [addressOf_append, slashed_eq_self (by rwa [toList_ofChars]), ← String.toList_inj, toList_ofChars,
    glue_eq_intercalate, String.toList_intercalate]
  rfl

theorem addressOf_inj (h : ∀ s ∈ rel, IsName s ∧ '\\' ∉ s.toList) (h' : ∀ s ∈ rel', IsName s ∧ '\\' ∉ s.toList)
    (hne : rel ≠ []) (hne' : rel' ≠ []) (he : addressOf loc (loc ++ rel) = addressOf loc (loc ++ rel')) :
    rel = rel' := by
  have hsplit : ∀ {l : List String}, (∀ s ∈ l, IsName s ∧ '\\' ∉ s.toList) → l ≠ [] →
      split '/' ("/".intercalate l).toList = l.map String.toList := by
    intro l hl hl0
    rw [String.toList_intercalate, show "/".toList = ['/'] from rfl, ← glue_eq_intercalate]
    refine split_glue (by simpa using hl0) fun t ht => ?_
    obtain ⟨s, hs, rfl⟩ := List.mem_map.1 ht
    exact (hl s hs).1.2.2.2
  rw [addressOf_eq loc fun s hs => (h s hs).2, addressOf_eq loc fun s hs => (h' s hs).2] at he
  have hm := hsplit h hne
  rw [he, hsplit h' hne'] at hm
  exact List.map_injective_iff.2 (fun a b => String.toList_inj.1) hm.symm

/-- The new name that an asset gets in the end, if it still has its place when its turn comes. -/
def Shelf.Renamed (s : Shelf) (n m : String) : Prop := s.newName? n = some m ∧ ¬ s.Displaced n

theorem Stamped.mem_pairs (h : Stamped loc D fs fs' pairs) (hw : fs.WellFormed) (q : String × String) :
    q ∈ pairs ↔ ∃ d n m, D d ∧ (shelfOf fs d).Renamed n m ∧ q = recorded loc d (n, m) := by
  rw [h.renames]
  refine exists_congr fun d => exists_congr fun n => exists_congr fun m => and_congr_right fun _ =>
    and_congr_left fun _ => ?_
  rw [Shelf.mem_renames (named_shelfOf hw d) (assetsIn_sorted fs d) (fun _ => isName_of_mem_assetsIn hw)
    (pending_assetsIn fs d), mem_assetsIn]
  refine ⟨And.right, fun hm => ⟨?_, hm⟩⟩
  obtain ⟨bytes, hb, -⟩ := Shelf.newName?_eq_some.1 hm.1
  rw [hb]
  rfl

theorem stampTree_ok (hr : Region root loc w) (h : stampTree root w = .ok renames w') : ∃ pairs,
    renames = Table.ofPairs pairs ∧ w'.cwd = w.cwd ∧ Stamped loc (DirsBelow w.files loc) w.files w'.files pairs := by
  rw [stampTree, get_bind] at h
  obtain ⟨pairs, w₁, hbelow, hrest⟩ := bind_eq_ok h
  cases hrest
  have hd : w.files.at? (loc ++ []) = some .directory := by rw [List.append_nil]; exact hr.leadsTo.directory
  obtain ⟨hcwd, hst⟩ := stampBelow_ok w.files.maxDepth hr hd hbelow
  rw [List.append_nil] at hst
  exact ⟨pairs, rfl, hcwd, hst⟩

theorem Region.names (hr : Region root loc w) (hslash : NoBackslash w.files loc)
    (hx : (w.files.at? (loc ++ rel)).isSome) : ∀ s ∈ rel, IsName s ∧ '\\' ∉ s.toList := fun s hs =>
  ⟨names_below hr.wellFormed hx s hs, hslash.names hr.wellFormed hx s hs⟩

theorem Region.address_inj (hr : Region root loc w) (hslash : NoBackslash w.files loc)
    (hx : (w.files.at? (loc ++ rel ++ [n])).isSome) (hy : (w.files.at? (loc ++ rel' ++ [m])).isSome)
    (he : addressOf loc (loc ++ rel ++ [n]) = addressOf loc (loc ++ rel' ++ [m])) : rel = rel' ∧ n = m := by
  rw [List.append_assoc] at hx hy he
  rw [List.append_assoc] at he
  have hlist := addressOf_inj (hr.names hslash hx) (hr.names hslash hy) (by simp) (by simp) he
  obtain ⟨rfl, hn⟩ := List.append_inj' hlist rfl
  exact ⟨rfl, (List.cons_eq_cons.1 hn).1⟩

theorem Shelf.Renamed.isSome (h : (shelfOf fs dir).Renamed n m) : (fs.at? (dir ++ [n])).isSome := by
  obtain ⟨bytes, hb, -⟩ := Shelf.newName?_eq_some.1 h.1
  rw [(shelfOf_eq_some.1 hb).2]
  rfl

/-- No address has two new ones, so the table holds the pairs. -/
theorem get?_pairs (hr : Region root loc w) (hslash : NoBackslash w.files loc)
    (h : Stamped loc (DirsBelow w.files loc) w.files fs' pairs) {v : String} :
    Table.get? k (Table.ofPairs pairs) = some v ↔ (k, v) ∈ pairs := by
  have hmem := fun q => h.mem_pairs hr.wellFormed q
  refine Table.get?_ofPairs fun q hq r hr' hkey => ?_
  obtain ⟨d, n, m, ⟨⟨rel', rfl⟩, -⟩, hm, rfl⟩ := (hmem q).1 hq
  obtain ⟨d', n', m', ⟨⟨rel'', rfl⟩, -⟩, hm', rfl⟩ := (hmem r).1 hr'
  obtain ⟨rfl, rfl⟩ := hr.address_inj hslash hm.isSome hm'.isSome hkey
  obtain rfl := Option.some.inj (hm.1.symm.trans hm'.1)
  rfl

/-- What the table holds for the address of something below the root. -/
theorem get?_address (hr : Region root loc w) (hslash : NoBackslash w.files loc)
    (h : Stamped loc (DirsBelow w.files loc) w.files fs' pairs)
    (hx : (w.files.at? (loc ++ rel ++ [name])).isSome) {v : String} :
    Table.get? (addressOf loc (loc ++ rel ++ [name])) (Table.ofPairs pairs) = some v ↔
      ∃ m, (shelfOf w.files (loc ++ rel)).Renamed name m ∧ v = addressOf loc (loc ++ rel ++ [m]) := by
  rw [get?_pairs hr hslash h, h.mem_pairs hr.wellFormed]
  constructor
  · rintro ⟨d, n, m, ⟨⟨rel', rfl⟩, -⟩, hm, he⟩
    obtain ⟨hkey, rfl⟩ := Prod.mk.inj he
    obtain ⟨rfl, rfl⟩ := hr.address_inj hslash hx hm.isSome hkey
    exact ⟨m, hm, rfl⟩
  · rintro ⟨m, hm, rfl⟩
    exact ⟨_, name, m, ⟨List.prefix_append _ _, hr.wellFormed.parent hx⟩, hm, rfl⟩

/-- The path that a file is to be found under after its path has been looked up. -/
def lookedUp (renames : Renames) (p : String) : String := (Table.get? p renames).getD p

theorem Shelf.Displaces.not_page (h : (shelfOf fs dir).Displaces k n) (hw : fs.WellFormed) : ¬ IsPageName n := by
  obtain ⟨bytes, hb, hs⟩ := Shelf.newName?_eq_some.1 h.2.1
  obtain ⟨hpage, hat⟩ := shelfOf_eq_some.1 hb
  exact fun hc => hpage ((isPageName_stamped (hw.isName (by rw [hat]; rfl)) hs).1 hc)

section

variable (hr : Region root loc w) (hst : Stamped loc (DirsBelow w.files loc) w.files w'.files pairs)
  (hfile : w.files.at? (loc ++ rel ++ [name]) = some (.file bytes))

include hr hst hfile

theorem lookedUp_eq (hslash : NoBackslash w.files loc) :
    ((∀ m, ¬ (shelfOf w.files (loc ++ rel)).Renamed name m) →
        lookedUp (Table.ofPairs pairs) ("/".intercalate (rel ++ [name])) = "/".intercalate (rel ++ [name])) ∧
      ∀ m, (shelfOf w.files (loc ++ rel)).Renamed name m →
        lookedUp (Table.ofPairs pairs) ("/".intercalate (rel ++ [name])) = "/".intercalate (rel ++ [m]) := by
  have hsome : (w.files.at? (loc ++ rel ++ [name])).isSome := by rw [hfile]; rfl
  have haddress : ∀ {m}, '\\' ∉ m.toList → addressOf loc (loc ++ rel ++ [m]) = "/".intercalate (rel ++ [m]) := by
    intro m hm
    rw [List.append_assoc, addressOf_eq]
    intro s hs
    rcases List.mem_append.1 hs with hs | hs
    · exact (hr.names hslash (by rw [hr.wellFormed.parent hsome]; rfl) s hs).2
    · exact List.mem_singleton.1 hs ▸ hm
  have hname := hslash rel name hsome
  have hget := fun v => get?_address hr hslash hst hsome (v := v)
  rw [haddress hname] at hget
  constructor
  · intro hnot
    have hnone : Table.get? ("/".intercalate (rel ++ [name])) (Table.ofPairs pairs) = none := by
      rw [Option.eq_none_iff_forall_ne_some]
      rintro v hv
      obtain ⟨m, hm, -⟩ := (hget v).1 hv
      exact hnot m hm
    rw [lookedUp, hnone, Option.getD_none]
  · intro m hm
    obtain ⟨b, -, hs⟩ := Shelf.newName?_eq_some.1 hm.1
    have hsome' := (hget _).2 ⟨m, hm, rfl⟩
    rw [haddress fun hc => (mem_stamped (hr.wellFormed.isName hsome) hs hc).elim hname (by decide)] at hsome'
    rw [lookedUp, hsome', Option.getD_some]

/-- An asset whose place another one is put in is gone, and that one stands there in the end. -/
theorem at?_of_displaces (hk : (shelfOf w.files (loc ++ rel)).Displaces k name) :
    ∃ other, shelfOf w.files (loc ++ rel) k = some other ∧
      w'.files.at? (loc ++ rel ++ [name]) = some (.file other) := by
  have hw := hr.wellFormed
  obtain ⟨other, hother, -⟩ := Shelf.newName?_eq_some.1 hk.2.1
  have hdir : DirsBelow w.files loc (loc ++ rel) :=
    ⟨List.prefix_append _ _, hw.parent (by rw [hfile]; rfl)⟩
  have hmem : name ∈ assetsIn w.files (loc ++ rel) := by
    rw [mem_assetsIn, shelfOf_eq_some.2 ⟨hk.not_page hw, hfile⟩]
    rfl
  refine ⟨other, hother, (shelfOf_eq_some.1 ?_).2⟩
  rw [hst.shelf _ hdir, Shelf.stampAll_displaced (named_shelfOf hw _) (assetsIn_sorted _ _)
    (fun _ => isName_of_mem_assetsIn hw) (pending_assetsIn _ _) hmem hk, hother]

/-- An asset that keeps its place has its new name in the end, if no other content with its hash does. -/
theorem at?_of_not_displaced (hd : ¬ (shelfOf w.files (loc ++ rel)).Displaced name)
    (hsame : ∀ k c, (shelfOf w.files (loc ++ rel)).newName? k = some name → shelfOf w.files (loc ++ rel) k = some c →
      fingerprint c = fingerprint bytes → c = bytes) :
    w'.files.at? (loc ++ rel ++ [((shelfOf w.files (loc ++ rel)).newName? name).getD name]) = some (.file bytes) := by
  have hw := hr.wellFormed
  by_cases hpage : IsPageName name
  · have hnone : (shelfOf w.files (loc ++ rel)).newName? name = none := by simp [Shelf.newName?, shelfOf, hpage]
    rw [hnone, Option.getD_none, hst.toRestocked.page hpage, hfile]
  · have hshelf : shelfOf w.files (loc ++ rel) name = some bytes := shelfOf_eq_some.2 ⟨hpage, hfile⟩
    have hdir : DirsBelow w.files loc (loc ++ rel) :=
      ⟨List.prefix_append _ _, hw.parent (by rw [hfile]; rfl)⟩
    refine (shelfOf_eq_some.1 ?_).2
    rw [hst.shelf _ hdir]
    refine Shelf.stampAll_kept (named_shelfOf hw _) (assetsIn_sorted _ _) (fun _ => isName_of_mem_assetsIn hw)
      (pending_assetsIn _ _) (mem_assetsIn.2 (by rw [hshelf]; rfl)) hshelf hd hsame

end

end Asset

end SiteTree
