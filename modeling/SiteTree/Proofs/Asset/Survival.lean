import SiteTree.Proofs.Asset.Lookup

/-!
Which contents the first pass keeps: all but those in whose place another content is put before
their turn comes.
-/

namespace SiteTree.Asset

open SiteTree.Action FileSystem SiteTree.Path Text

variable {fs : FileSystem} {loc x : Location} {root : Path} {name n m k : String} {rel : List String}
  {bytes other : ByteArray} {w w' : World} {pairs : List (String × String)} {renames : Renames}

/-- Files below the location that have the same hash have the same content. -/
def HashesApart (fs : FileSystem) (loc : Location) : Prop :=
  ∀ x y a b, loc <+: x → loc <+: y → fs.at? x = some (.file a) → fs.at? y = some (.file b) →
    fingerprint a = fingerprint b → a = b

theorem hashesApart_iff : HashesApart fs loc ↔ ∀ e ∈ fs.entries, ∀ f ∈ fs.entries, loc <+: e.1 → loc <+: f.1 →
    ∀ a ∈ fileAt? fs e.1, ∀ b ∈ fileAt? fs f.1, fingerprint a = fingerprint b →
      FileNode.file a = FileNode.file b := by
  simp only [FileNode.file.injEq]
  constructor
  · intro h e _ f _ he hf a ha b hb
    exact h e.1 f.1 a b he hf (fileAt?_eq_some.1 ha) (fileAt?_eq_some.1 hb)
  · intro h x y a b hx hy ha hb
    obtain ⟨e, he, rfl⟩ := entry_of_file ha
    obtain ⟨f, hf, rfl⟩ := entry_of_file hb
    exact h e he f hf hx hy a (fileAt?_eq_some.2 ha) b (fileAt?_eq_some.2 hb)

instance (fs : FileSystem) (loc : Location) : Decidable (HashesApart fs loc) := decidable_of_iff' _ hashesApart_iff

/-- Paths below the root are read where they are written. -/
theorem Region.readFile_join (hr : Region root loc w) (hd : w.files.at? (loc ++ rel) = some .directory)
    (hn : IsName n) : w.files.readFile w.cwd (root.join ⟨"/".intercalate (rel ++ [n])⟩) = .ok bytes ↔
      w.files.at? (loc ++ rel ++ [n]) = some (.file bytes) := by
  have hrel := names_below hr.wellFormed (show (w.files.at? (loc ++ rel)).isSome by rw [hd]; rfl)
  have hnames : ∀ s ∈ rel ++ [n], IsName s := by
    intro s hs
    rcases List.mem_append.1 hs with hs | hs
    · exact hrel s hs
    · exact List.mem_singleton.1 hs ▸ hn
  have hjoin := join_glue hr.leadsTo.1 hnames (by simp)
  rw [ofChars_glue, descend_append] at hjoin
  rw [hjoin, hr.readFile_child hd hn]

/-- A file stays, under the path that its own is looked up to, just if no other content is put in
its place. -/
theorem stampTree_keeps_file_iff (hw : w.files.WellFormed) (hroot : w.files.found w.cwd root = .ok (loc, .directory))
    (hfree : w.files.LinkFree loc) (hslash : NoBackslash w.files loc) (hhash : HashesApart w.files loc)
    (hrun : stampTree root w = .ok renames w') (hfile : w.files.at? (loc ++ rel ++ [name]) = some (.file bytes)) :
    w'.files.readFile w'.cwd (root.join ⟨lookedUp renames ("/".intercalate (rel ++ [name]))⟩) = .ok bytes ↔
      ∀ k other, (shelfOf w.files (loc ++ rel)).Displaces k name → shelfOf w.files (loc ++ rel) k = some other →
        other = bytes := by
  have hr : Region root loc w := ⟨hw, leadsTo_iff.2 hroot, hfree⟩
  obtain ⟨pairs, rfl, hcwd, hst⟩ := stampTree_ok hr hrun
  have hr' := hr.restocked hcwd hst.toRestocked
  have hsome : (w.files.at? (loc ++ rel ++ [name])).isSome := by rw [hfile]; rfl
  have hd' := hst.directory.2 (hw.parent hsome)
  have hnamed := named_shelfOf hw (loc ++ rel)
  obtain ⟨hstill, hmoved⟩ := lookedUp_eq hr hst hfile hslash
  by_cases hdis : (shelfOf w.files (loc ++ rel)).Displaced name
  · obtain ⟨k, hk⟩ := (Shelf.displaced_iff hnamed).1 hdis
    obtain ⟨other, hother, hat⟩ := at?_of_displaces hr hst hfile hk
    rw [hstill fun m hm => hm.2 hdis, hr'.readFile_join hd' (hw.isName hsome), hat]
    constructor
    · rintro he k' other' hk' ho'
      cases he
      obtain rfl := Shelf.newName?_inj hnamed hk'.2.1 hk.2.1
      exact Option.some.inj (ho'.symm.trans hother)
    · intro h
      rw [h k other hk hother]
  · refine iff_of_true ?_ fun k other hk => absurd ((Shelf.displaced_iff hnamed).2 ⟨k, hk⟩) hdis
    have hbelow : ∀ s, loc <+: loc ++ rel ++ [s] := fun s => by rw [List.append_assoc]; exact List.prefix_append _ _
    have hat := at?_of_not_displaced hr hst hfile hdis fun k c _ hc he =>
      hhash _ _ c bytes (hbelow k) (hbelow name) (shelfOf_eq_some.1 hc).2 hfile he
    cases hnew : (shelfOf w.files (loc ++ rel)).newName? name with
    | none =>
        rw [hnew] at hat
        rw [hstill fun m hm => absurd (hnew.symm.trans hm.1) nofun, hr'.readFile_join hd' (hw.isName hsome)]
        exact hat
    | some m =>
        rw [hnew] at hat
        obtain ⟨b, -, hs⟩ := Shelf.newName?_eq_some.1 hnew
        rw [hmoved m ⟨hnew, hdis⟩, hr'.readFile_join hd' (stamp?_isName (hw.isName hsome) (isHash_fingerprint b) hs)]
        exact hat

/-- Two files side by side, the second under the name that the first is to get. -/
def taken : World :=
  ⟨⟨[(["r"], .directory), (["r", "a"], .file "x".toUTF8), (["r", "a-2d711642"], .file "y".toUTF8)]⟩, [], []⟩

theorem taken_keeps_first : ∃ renames w', stampTree ⟨"r"⟩ taken = .ok renames w' ∧
    w'.files.readFile w'.cwd (Path.join ⟨"r"⟩ ⟨lookedUp renames "a"⟩) = .ok "x".toUTF8 := by
  obtain ⟨renames, w', hrun⟩ := succeeds_iff.1 (show succeeds (stampTree ⟨"r"⟩) taken = true by decide +kernel)
  have hroot : taken.files.found taken.cwd ⟨"r"⟩ = .ok (["r"], .directory) := by decide +kernel
  have hfile : taken.files.at? (["r"] ++ [] ++ ["a"]) = some (.file "x".toUTF8) := by decide +kernel
  refine ⟨renames, w', hrun, (stampTree_keeps_file_iff (by decide +kernel) hroot (by decide +kernel) (by decide +kernel)
    (by decide +kernel) hrun hfile).2 ?_⟩
  intro k other hk hother
  -- the name is too short to carry a hash
  have ha := hk.addressed (named_shelfOf (by decide +kernel) _) hother
  have hlen := (List.isSuffixOf_iff_suffix.1 ha).length_le
  rw [List.length_cons, fingerprint_length] at hlen
  exact absurd hlen (by decide)

/-- The second file is lost: what is found for it is the content of the first. -/
theorem taken_loses_second : taken.files.WellFormed ∧
    taken.files.found taken.cwd ⟨"r"⟩ = .ok (["r"], .directory) ∧ taken.files.LinkFree ["r"] ∧
    NoBackslash taken.files ["r"] ∧ HashesApart taken.files ["r"] ∧
    taken.files.at? ["r", "a-2d711642"] = some (.file "y".toUTF8) ∧
    ∃ renames w', stampTree ⟨"r"⟩ taken = .ok renames w' ∧
      w'.files.readFile w'.cwd (Path.join ⟨"r"⟩ ⟨lookedUp renames "a-2d711642"⟩) ≠ .ok "y".toUTF8 := by
  refine ⟨by decide +kernel, by decide +kernel, by decide +kernel, by decide +kernel, by decide +kernel,
    by decide +kernel, ?_⟩
  obtain ⟨renames, w', hrun, h⟩ := yields_iff.1 (show yields (stampTree ⟨"r"⟩) taken (fun renames w' =>
    w'.files.readFile w'.cwd (Path.join ⟨"r"⟩ ⟨lookedUp renames "a-2d711642"⟩) ≠ .ok "y".toUTF8) = true by
      decide +kernel)
  exact ⟨renames, w', hrun, of_decide_eq_true h⟩

end SiteTree.Asset
