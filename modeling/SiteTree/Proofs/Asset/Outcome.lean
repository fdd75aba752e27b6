import SiteTree.Proofs.Asset.Order

/-!
What both passes leave behind, told by the tree they start from: which files have which new names,
what the table of renames holds, and what each file contains.
-/

namespace SiteTree.Asset

open SiteTree.Action FileSystem SiteTree.Path Text

variable {fs fs' : FileSystem} {loc : Location} {root : Path} {n m k v : String} {rel : List String}
  {bytes : ByteArray} {w w' : World} {pairs : List (String × String)} {renames : Renames}

/-- The path of an asset below the location whose name has no hash yet, and its path with the hash. -/
def Due (fs : FileSystem) (loc : Location) (old new : String) : Prop :=
  ∃ rel n m bytes, fs.at? (loc ++ rel ++ [n]) = some (.file bytes) ∧ ¬ IsPageName n ∧ ¬ Addressed n bytes ∧
    stamp? n (fingerprint bytes) = some m ∧ old = "/".intercalate (rel ++ [n]) ∧ new = "/".intercalate (rel ++ [m])

theorem became_of_some (h : (shelfOf fs loc).newName? n = some m) : became fs loc n = m := by
  rw [became, h]
  rfl

theorem became_of_none (h : (shelfOf fs loc).newName? n = none) : became fs loc n = n := by
  rw [became, h]
  rfl

/-- Where new names are free, what has become of two files are two files. -/
theorem FreshIn.became_inj (h : FreshIn fs loc) (hw : fs.WellFormed) (hn : (fs.at? (loc ++ [n])).isSome)
    (hm : (fs.at? (loc ++ [m])).isSome) (he : became fs loc n = became fs loc m) : n = m := by
  have hfree : ∀ {a b}, (shelfOf fs loc).newName? a = some b → ¬ (fs.at? (loc ++ [b])).isSome := by
    intro a b hab
    rw [h a b hab]
    exact Bool.false_ne_true
  cases hnew : (shelfOf fs loc).newName? n with
  | none =>
      rw [became_of_none hnew] at he
      cases hnew' : (shelfOf fs loc).newName? m with
      | none => rwa [became_of_none hnew'] at he
      | some b =>
          rw [became_of_some hnew'] at he
          exact absurd (he ▸ hn) (hfree hnew')
  | some a =>
      rw [became_of_some hnew] at he
      cases hnew' : (shelfOf fs loc).newName? m with
      | none =>
          rw [became_of_none hnew'] at he
          exact absurd (he ▸ hm) (hfree hnew)
      | some b =>
          rw [became_of_some hnew'] at he
          exact Shelf.newName?_inj (named_shelfOf hw loc) hnew (he ▸ hnew')

theorem rewritten_eq (renames : Renames) (bytes : ByteArray) : rewritten renames bytes =
    match String.fromUTF8? bytes with
    | some text => (redirected text renames).toUTF8
    | none => bytes := by
  rw [rewritten]
  cases ht : String.fromUTF8? bytes with
  | none => rfl
  | some text =>
      rw [Option.bind_some]
      cases hr : redirect? text renames with
      | some content => simp only [redirected, hr, Option.getD_some]
      | none =>
          simp only [redirected, hr, Option.getD_none]
          rw [String.fromUTF8?] at ht
          split at ht
          · cases ht
            rfl
          · cases ht

section

variable (hr : Region root loc w) (hfresh : FreshNames w.files loc)
  (hst : Stamped loc (DirsBelow w.files loc) w.files w'.files pairs)

include hr hfresh hst

theorem get?_iff_due (hslash : NoBackslash w.files loc) :
    Table.get? k (Table.ofPairs pairs) = some v ↔ Due w.files loc k v := by
  have haddress : ∀ {rel n m bytes}, w.files.at? (loc ++ rel ++ [n]) = some (.file bytes) →
      stamp? n (fingerprint bytes) = some m → recorded loc (loc ++ rel) (n, m) =
        ("/".intercalate (rel ++ [n]), "/".intercalate (rel ++ [m])) := by
    intro rel n m bytes hat hm
    have hsome : (w.files.at? (loc ++ (rel ++ [n]))).isSome := by
      rw [← List.append_assoc, hat]
      rfl
    have hnames := hr.names hslash hsome
    have hrel : ∀ s ∈ rel, '\\' ∉ s.toList := fun s hs => (hnames s (List.mem_append_left _ hs)).2
    obtain ⟨hn, hback⟩ := hnames n (by simp)
    have hback' : '\\' ∉ m.toList := fun hc => (mem_stamped hn hm hc).elim hback (by decide)
    rw [recorded, List.append_assoc, List.append_assoc, addressOf_eq loc, addressOf_eq loc]
    · simpa [or_imp, forall_and] using ⟨hrel, hback'⟩
    · simpa [or_imp, forall_and] using ⟨hrel, hback⟩
  rw [get?_pairs hr hslash hst, hst.mem_pairs hr.wellFormed]
  constructor
  · rintro ⟨d, n, m, ⟨⟨rel, rfl⟩, -⟩, ⟨hnew, -⟩, he⟩
    obtain ⟨bytes, hb, hm⟩ := Shelf.newName?_eq_some.1 hnew
    obtain ⟨hpage, hat⟩ := shelfOf_eq_some.1 hb
    have hn : IsName n := hr.wellFormed.isName (by rw [hat]; rfl)
    rw [haddress hat hm] at he
    obtain ⟨rfl, rfl⟩ := Prod.mk.inj he
    refine ⟨rel, n, m, bytes, hat, hpage, ?_, hm, rfl, rfl⟩
    rw [← stamp?_eq_none hn, hm]
    exact Option.some_ne_none m
  · rintro ⟨rel, n, m, bytes, hat, hpage, -, hm, rfl, rfl⟩
    have hsome : (w.files.at? (loc ++ rel ++ [n])).isSome := by rw [hat]; rfl
    have hnew := (Shelf.newName?_of_some (shelfOf_eq_some.2 ⟨hpage, hat⟩)).trans hm
    refine ⟨loc ++ rel, n, m, ⟨List.prefix_append _ _, hr.wellFormed.parent hsome⟩,
      ⟨hnew, hfresh.not_displaced (List.prefix_append _ _) hsome⟩, (haddress hat hm).symm⟩

/-- The files after the first pass are the old ones under what their names have become. -/
theorem file_iff_became : w'.files.at? (loc ++ rel ++ [m]) = some (.file bytes) ↔
    ∃ n, w.files.at? (loc ++ rel ++ [n]) = some (.file bytes) ∧ m = became w.files (loc ++ rel) n := by
  constructor
  · intro hat
    have hd := hst.directory.1 (hst.wellFormed.parent (by rw [hat]; rfl))
    by_cases hpage : IsPageName m
    · refine ⟨m, by rw [← hst.page hpage, hat], (became_of_none ?_).symm⟩
      simp [Shelf.newName?, shelfOf, hpage]
    · have hshelf := shelfOf_eq_some.2 ⟨hpage, hat⟩
      rw [hst.shelf _ ⟨List.prefix_append _ _, hd⟩] at hshelf
      obtain ⟨n, hn, hcase⟩ := Shelf.stampAll_origin (named_shelfOf hr.wellFormed _) hshelf
      have hnew := Shelf.newName?_of_some hn
      refine ⟨n, (shelfOf_eq_some.1 hn).2, ?_⟩
      rcases hcase with rfl | hm
      · have haddressed := Shelf.stampAll_addressed (fun _ => isName_of_mem_assetsIn hr.wellFormed)
          (fun x b hx => .inl (mem_assetsIn.2 (by rw [hx]; rfl))) hshelf
        have hname : IsName m := hst.wellFormed.isName (by rw [hat]; rfl)
        exact (became_of_none (hnew.trans ((stamp?_eq_none hname).2 haddressed))).symm
      · exact (became_of_some (hnew.trans hm)).symm
  · rintro ⟨n, hn, rfl⟩
    exact at?_became hr hfresh hst hn

end

/-- In whatever order the files are taken, that of their names or another, both passes succeed where no
new name is in use. The table then holds just the assets that had no hash in their names, no directory
comes or goes, and the files are the old ones under what their names have become: texts with the
references in the table replaced, and all others as they were. -/
theorem runPasses_outcome (hw : w.files.WellFormed)
    (hroot : w.files.resolve w.cwd false root = .ok (.found loc .directory)) (hfree : w.files.LinkFree loc)
    (hslash : NoBackslash w.files loc) (hfresh : FreshNames w.files loc) :
    Order.byName.runPasses root = runPasses root ∧ ∀ order : Order,
      ∃ renames w', order.runPasses root w = .ok renames w' ∧
        (∀ old new, Table.get? old renames = some new ↔ Due w.files loc old new) ∧
        (∀ x, w'.files.at? x = some .directory ↔ w.files.at? x = some .directory) ∧
        (∀ rel m bytes', w'.files.at? (loc ++ rel ++ [m]) = some (.file bytes') ↔
          ∃ n bytes, w.files.at? (loc ++ rel ++ [n]) = some (.file bytes) ∧ m = became w.files (loc ++ rel) n ∧
            bytes' = match String.fromUTF8? bytes with
              | some text => (redirected text renames).toUTF8
              | none => bytes) ∧
        (∀ rel n n', (w.files.at? (loc ++ rel ++ [n])).isSome → (w.files.at? (loc ++ rel ++ [n'])).isSome →
          became w.files (loc ++ rel) n = became w.files (loc ++ rel) n' → n = n') ∧
        ∀ x, ¬ loc <+: x → w'.files.at? x = w.files.at? x := by
  refine ⟨Order.byName_runPasses root, fun order => ?_⟩
  have hr : Region root loc w := ⟨hw, leadsTo_iff.2 (found_of_resolve hroot), hfree⟩
  obtain ⟨pairs, w₁, w', hrun, -, hst, hred⟩ := order.runPasses_runs hr hroot hfresh
  have hin : ∀ rel (m : String), loc <+: loc ++ rel ++ [m] := fun rel m => by
    rw [List.append_assoc]
    exact List.prefix_append _ _
  refine ⟨Table.ofPairs pairs, w', hrun, fun old new => get?_iff_due hr hfresh hst hslash,
    fun x => hred.directory.trans hst.directory, fun rel m bytes' => ?_, fun rel n n' hn hn' => ?_, fun x hx => ?_⟩
  · rw [hred.text _ (hin rel m), Option.map_eq_some_iff]
    constructor
    · rintro ⟨node, hnode, he⟩
      cases node with
      | file bytes =>
          obtain ⟨n, hat, hm⟩ := (file_iff_became hr hfresh hst).1 hnode
          refine ⟨n, bytes, hat, hm, ?_⟩
          rw [← rewritten_eq]
          exact (FileNode.file.inj he).symm
      | link | directory => cases he
    · rintro ⟨n, bytes, hat, hm, he⟩
      refine ⟨.file bytes, (file_iff_became hr hfresh hst).2 ⟨n, hat, hm⟩, ?_⟩
      rw [rewriteNode, rewritten_eq, he]
  · exact (hfresh.freshIn (List.prefix_append loc rel)).became_inj hw hn hn'
  · rw [hred.kept x hx, hst.kept]
    rintro ⟨d, n, ⟨hd, -⟩, -, rfl⟩
    exact hx (hd.trans (List.prefix_append _ _))

/-- A picture in a directory of its own, a stylesheet and a page that refer to it, and bytes that are
no text. -/
def mixed : World :=
  ⟨⟨[(["r"], .directory), (["r", "a.css"], .file "url('img/b.svg')".toUTF8), (["r", "img"], .directory),
    (["r", "img", "b.svg"], .file "x".toUTF8), (["r", "index.html"], .file "<img src='img/b.svg'>".toUTF8),
    (["r", "raw"], .file ⟨#[0xff]⟩)]⟩, [], []⟩

theorem mixed_outcome : ∃ renames w', Order.backwards.runPasses ⟨"r"⟩ mixed = .ok renames w' ∧
    Table.get? "img/b.svg" renames = some "img/b-2d711642.svg" ∧
    w'.files.at? ["r", "img"] = some .directory ∧
    w'.files.at? ["r", became mixed.files ["r"] "raw"] = some (.file ⟨#[0xff]⟩) ∧
    w'.files.at? ["r", "index.html"] = some (.file (redirected "<img src='img/b.svg'>" renames).toUTF8) := by
  have hroot : mixed.files.resolve mixed.cwd false ⟨"r"⟩ = .ok (.found ["r"] .directory) := by decide +kernel
  obtain ⟨renames, w', hrun, hkeys, hdirs, hfiles, -⟩ := (runPasses_outcome (by decide +kernel) hroot
    (by decide +kernel) (by decide +kernel) (by decide +kernel)).2 .backwards
  refine ⟨renames, w', hrun, ?_, ?_, ?_, ?_⟩
  · apply (hkeys _ _).2
    exact ⟨["img"], "b.svg", "b-2d711642.svg", "x".toUTF8, by decide +kernel, by decide +kernel, by decide +kernel,
      by decide +kernel, rfl, rfl⟩
  · apply (hdirs _).2
    decide +kernel
  · apply (hfiles [] _ _).2
    have hraw : String.fromUTF8? ⟨#[0xff]⟩ = none := by decide +kernel
    refine ⟨"raw", ⟨#[0xff]⟩, by decide +kernel, rfl, ?_⟩
    rw [hraw]
  · apply (hfiles [] _ _).2
    refine ⟨"index.html", "<img src='img/b.svg'>".toUTF8, by decide +kernel, by decide +kernel, ?_⟩
    rw [fromUTF8?_toUTF8]

end SiteTree.Asset
