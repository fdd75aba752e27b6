import SiteTree.Asset.Pass
import SiteTree.Proofs.Path.Child
import SiteTree.Proofs.Walk.Emit

/-!
Both asset passes keep all changes confined to the tree that they run on.
-/

namespace SiteTree.Asset

open SiteTree.Action FileSystem SiteTree.Path Text

variable {J : FileSystem → Prop} {fs fs₀ : FileSystem} {base names : List String}
    {root : Location} {dir p : Path}
  {entry : Entry} {w w' : World} {name hash : String}

theorem fingerprint_chars (bytes : ByteArray) : ∀ c ∈ (fingerprint bytes).toList, c ∈ "0123456789abcdef".toList := by
  have hdigit : ∀ n : Fin 16, Nat.digitChar n ∈ "0123456789abcdef".toList := by decide
  rw [fingerprint, String.toList_ofList, hexWord]
  intro c hc
  obtain ⟨i, -, rfl⟩ := List.mem_map.1 hc
  exact hdigit ⟨_, Nat.mod_lt _ (by decide)⟩

theorem fingerprint_length (bytes : ByteArray) : (fingerprint bytes).toList.length = 8 := by
  rw [fingerprint, String.toList_ofList, hexWord, List.length_map, List.length_range]

/-- Eight hexadecimal digits, the letters small. -/
def IsHash (hash : String) : Prop := hash.toList.length = 8 ∧ ∀ c ∈ hash.toList, c ∈ "0123456789abcdef".toList

instance (hash : String) : Decidable (IsHash hash) :=
  @instDecidableAnd _ _ _ (List.decidableBAll (· ∈ "0123456789abcdef".toList) hash.toList)

theorem isHash_fingerprint (bytes : ByteArray) : IsHash (fingerprint bytes) :=
  ⟨fingerprint_length bytes, fingerprint_chars bytes⟩

theorem IsHash.dot_not_mem (h : IsHash hash) : '.' ∉ hash.toList := fun hd => absurd (h.2 _ hd) (by decide)

theorem IsHash.slash_not_mem (h : IsHash hash) : '/' ∉ hash.toList := fun hd => absurd (h.2 _ hd) (by decide)

theorem stamp?_isName (h : IsName name) (hhash : IsHash hash) {new : String} (hs : stamp? name hash = some new) : IsName new := by
  have hh : '/' ∉ hash.toList := hhash.slash_not_mem
  have hname : ∀ s : List Char, '/' ∉ s → '-' ∈ s → IsName (String.ofList s) :=
    fun s hslash hyphen => isName_of_not_isDots hslash fun hd => absurd (hd '-' hyphen) (by decide)
  simp only [stamp?, fileChars?_name h, bind, Option.bind] at hs
  rcases hc : cutName name.toList with ⟨stem, ext⟩
  rw [hc] at hs
  dsimp only at hs
  have hstem : '/' ∉ stem := fun hm => h.2.2.2 (mem_of_mem_stem (by rwa [hc]))
  split at hs
  · cases hs
  · cases ext with
    | none =>
        cases hs
        exact hname _ (by simp [hstem, hh]) (by simp)
    | some ext =>
        cases hs
        have hext : '/' ∉ ext := fun hm => h.2.2.2 (by rw [cutName_eq_some hc]; simp [hm])
        exact hname _ (by simp [hstem, hh, hext]) (by simp)

theorem list_ok {cwd : Location} {names : List String} (h : fs.list cwd dir = .ok names) :
    ∃ loc, names = fs.children loc := by
  rw [list] at h
  cases hf : fs.found cwd dir with
  | error cause => rw [hf] at h; cases h
  | ok place =>
      obtain ⟨loc, node⟩ := place
      rw [hf] at h
      cases node <;> cases h
      exact ⟨loc, rfl⟩

theorem entryOf_ok (h : entryOf dir name w = .ok entry w') :
    w' = w ∧ entry.path = dir.child name ∧ entry.name = name := by
  obtain ⟨⟨loc, node⟩, w₁, hl, he⟩ := bind_eq_ok h
  obtain ⟨rfl, -⟩ := look_ok hl
  cases he
  exact ⟨rfl, rfl, rfl⟩

theorem mapM_entryOf_ok {entries : List Entry} (h : names.mapM (entryOf dir) w = .ok entries w') :
    w' = w ∧ ∀ e ∈ entries, e.path = dir.child e.name ∧ e.name ∈ names := by
  induction names generalizing entries w with
  | nil => cases h; exact ⟨rfl, nofun⟩
  | cons name names ih =>
      rw [List.mapM_cons] at h
      obtain ⟨e, w₁, he, h₁⟩ := bind_eq_ok h
      obtain ⟨rest, w₂, hr, h₂⟩ := bind_eq_ok h₁
      cases h₂
      obtain ⟨rfl, hpath, hname⟩ := entryOf_ok he
      obtain ⟨rfl, hrest⟩ := ih hr
      refine ⟨rfl, fun e' he' => ?_⟩
      rcases List.mem_cons.1 he' with rfl | he'
      · exact ⟨by rw [hname, hpath], by simp [hname]⟩
      · exact ⟨(hrest e' he').1, List.mem_cons_of_mem _ (hrest e' he').2⟩

theorem entriesOf_ok {entries : List Entry} (h : entriesOf dir w = .ok entries w') : w' = w ∧
    ∀ e ∈ entries, e.path = dir.child e.name ∧ ∃ loc, e.name ∈ w.files.children loc := by
  obtain ⟨names, w₁, hl, hm⟩ := bind_eq_ok h
  obtain ⟨rfl, hnames⟩ := look_ok hl
  obtain ⟨rfl, hentries⟩ := mapM_entryOf_ok hm
  obtain ⟨loc, rfl⟩ := list_ok hnames
  exact ⟨rfl, fun e he => ⟨(hentries e he).1, loc, (hentries e he).2⟩⟩

theorem entriesOf_keeps (dir : Path) : Keeps J (entriesOf dir) :=
  (Keeps.look _ _).bind fun _ => Keeps.mapM fun _ _ => (Keeps.look _ _).bind fun _ => Keeps.pure _

theorem isName_of_mem_children (h : fs.WellFormed) {loc : Location} (hn : name ∈ fs.children loc) :
    IsName name :=
  h.isName (mem_children.1 hn)

theorem readFile_ok {cwd : Location} {bytes : ByteArray} (h : fs.readFile cwd p = .ok bytes) :
    ∃ loc, fs.resolve cwd true p = .ok (.found loc (.file bytes)) := by
  rw [readFile, found] at h
  cases hr : fs.resolve cwd true p with
  | error cause => rw [hr] at h; cases h
  | ok place =>
      rw [hr] at h
      cases place with
      | vacant dir name slashed => cases h
      | found loc node => cases node <;> cases h; exact ⟨loc, rfl⟩

/-- Inside the directory, where there are no links, a path that can be read is that of a file. -/
theorem isFile_of_readFile (hc : Confined base root fs₀ fs) (hp : Inside base p) {cwd : Location}
    {bytes : ByteArray}
    (hr : fs.readFile cwd p = .ok bytes) {loc : Location} {node : FileNode}
    (hl : fs.locate cwd p = .ok (.found loc node)) : node.IsFile := by
  obtain ⟨loc', hloc⟩ := readFile_ok hr
  have hat := (locate_leads hl).at?_found
  obtain ⟨names, hn, hspells⟩ := hp.below
  rw [hspells.locate_eq] at hl
  rw [hspells.resolve_open hp.1] at hloc
  have hempty := Confined.not_empty hspells
  have hsame : loc = loc' := (hc.location hempty hn hl).trans (hc.location hempty hn hloc).symm
  rw [hsame, (Leads.of_walk hloc).at?_found] at hat
  exact ⟨bytes, (Option.some.inj hat).symm⟩

theorem stampFile_keeps (outer : Path) {name : String} (hp : Below base dir)
    (hname : IsName name) (hd : Bool) :
    Keeps (Confined base root fs₀) (stampFile outer ⟨name, dir.child name, hd⟩) := by
  intro w hw
  refine bind_keeps (by rwa [readBytes, after_look]) fun bytes w₁ hread hw₁ => ?_
  obtain ⟨rfl, hbytes⟩ := look_ok hread
  have hin := inside_child hp hname
  split
  · exact hw₁
  · next new hstamp =>
    have hnew := stamp?_isName hname (isHash_fingerprint bytes) hstamp
    refine bind_keeps (change_keeps hw₁ fun fs hr => ?_) fun _ w₂ _ hw₂ => hw₂
    exact hw₁.rename hin.below (hin.withFileName hnew).below (fun loc node hl => isFile_of_readFile hw₁ hin hbytes hl) hr

/-- The induction is on the nesting that is left; names are read from the tree as it stands. -/
theorem stampBelow_keeps (outer : Path) (n : Nat) {dir : Path} (hd : Below base dir) :
    Keeps (Confined base root fs₀) (stampBelow outer n dir) := by
  induction n generalizing dir with
  | zero => exact Keeps.throw _
  | succ n ih =>
      intro w hw
      refine bind_keeps (entriesOf_keeps dir w hw) fun entries w₁ hl hw₁ => ?_
      obtain ⟨rfl, hentries⟩ := entriesOf_ok hl
      have hname : ∀ e ∈ entries, IsName e.name := fun e he =>
        isName_of_mem_children hw.wellFormed (hentries e he).2.choose_spec
      refine Keeps.bind (Keeps.mapM fun e he => ?_) (fun _ => Keeps.bind (Keeps.mapM fun e he => ?_) fun _ =>
        Keeps.pure _) w₁ hw₁
      · have hmem := (List.mem_filter.1 he).1
        exact (hentries e hmem).1 ▸ ih (inside_child hd (hname e hmem)).below
      · have hmem := (List.mem_filter.1 he).1
        obtain ⟨name, path, isDirectory⟩ := e
        obtain rfl : path = dir.child name := (hentries _ hmem).1
        exact stampFile_keeps outer hd (hname _ hmem) isDirectory

theorem stampTree_keeps (h : p.Spells base) : Keeps (Confined base root fs₀) (stampTree p) :=
  Keeps.bind (fun _ hw => hw) fun w => (stampBelow_keeps p w.files.maxDepth (Below.self h)).bind fun _ => Keeps.pure _

theorem filesBelow_inside (h : fs.WellFormed) (n : Nat) {loc : Location} {dir : Path} (hd : Below base dir) :
    ∀ p ∈ filesBelow fs loc dir n, Inside base p := by
  induction n generalizing loc dir with
  | zero => nofun
  | succ n ih =>
      intro p hp
      obtain ⟨name, hname, hp⟩ := List.mem_flatMap.1 hp
      have hin := inside_child hd (isName_of_mem_children h hname)
      dsimp only at hp
      split at hp
      · exact ih hin.below p hp
      · exact List.mem_singleton.1 hp ▸ hin

/-- The root is a directory, so it is gone through and is no file itself. -/
theorem textCandidates_inside (hc : Confined base root fs₀ w.files) (h : p.Spells base) {paths : List Path}
    (hr : textCandidates p w = .ok paths w') : ∀ q ∈ paths, Inside base q := by
  obtain ⟨place, w₁, hl, hr⟩ := bind_eq_ok hr
  obtain ⟨rfl, hplace⟩ := look_ok hl
  rw [hc.resolve_self h] at hplace
  cases hplace
  cases hr
  exact filesBelow_inside hc.wellFormed _ (Below.self h)

theorem redirectFile_keeps (renames : Renames) (h : Inside base p) :
    Keeps (Confined base root fs₀) (redirectFile renames p) := by
  refine (readBytes_keeps p).bind fun bytes => ?_
  split
  · exact Keeps.pure _
  · exact (Keeps.debug _ _).bind fun _ => writeBytes_keeps h _

theorem textCandidates_keeps (p : Path) : Keeps J (textCandidates p) := by
  refine (Keeps.look _ _).bind fun place => Keeps.bind (fun _ hw => hw) fun w => ?_
  split
  · exact Keeps.throw _
  · exact Keeps.pure _
  · exact Keeps.pure _
  · exact (Keeps.look _ _).bind fun _ => Keeps.pure _

theorem redirectTree_keeps (h : p.Spells base) (renames : Renames) :
    Keeps (Confined base root fs₀) (redirectTree p renames) := by
  rw [redirectTree]
  split
  · exact Keeps.pure _
  · intro w hw
    refine bind_keeps (textCandidates_keeps p w hw) fun paths w₁ hr hw₁ => ?_
    exact Keeps.forM (fun q hq => redirectFile_keeps renames (textCandidates_inside hw h hr q hq)) w₁ hw₁

theorem runPasses_keeps (h : p.Spells base) : Keeps (Confined base root fs₀) (runPasses p) :=
  (stampTree_keeps h).bind fun renames => (redirectTree_keeps h renames).bind fun _ => Keeps.pure _

end SiteTree.Asset
