import SiteTree.Proofs.Asset.Redirecting
import SiteTree.Proofs.Asset.Reference

/-!
What the references in a text lead to after both passes. The new ones are paths below the root, but
are read from the directory of the text.
-/

namespace SiteTree.Asset

open SiteTree.Action FileSystem SiteTree.Path Text

variable {fs fs' : FileSystem} {dir loc x : Location} {root p : Path} {name n m f g k : String}
  {rel rel' names : List String} {bytes : ByteArray} {w w' : World} {pairs : List (String × String)}
  {renames : Renames} {q c : Char} {pre body post : List Char} {text v : String}

/-- No new name of an asset is in use where it is to be. -/
def FreshNames (fs : FileSystem) (loc : Location) : Prop :=
  ∀ dir n m, loc <+: dir → (shelfOf fs dir).newName? n = some m → fs.at? (dir ++ [m]) = none

/-- The name that a file of the directory has after the first pass. -/
def became (fs : FileSystem) (dir : Location) (name : String) : String := ((shelfOf fs dir).newName? name).getD name

/-- What a reference in a directory names: with a slash in front it starts at the root. -/
def referred (root dir : Location) : List Char → Location
  | '/' :: s => settle root (stretches s)
  | s => settle dir (stretches s)

theorem referred_dot (root dir : Location) (s : List Char) :
    referred root dir ('.' :: '/' :: s) = settle dir (stretches s) := by
  show settle dir (stretches (['.'] ++ '/' :: s)) = _
  rw [stretches_append]
  rfl

/-- The quote and the content of the reference that stands where one was. -/
def standing (renames : Renames) (q : Char) (body : List Char) : Char × List Char :=
  match Table.get? (String.ofList (bare body)) renames with
  | some new => ('"', '.' :: '/' :: new.toList.takeWhile (· ≠ '"'))
  | none => (q, body)

theorem fromUTF8?_toUTF8 (s : String) : String.fromUTF8? s.toUTF8 = some s := by
  simp only [String.fromUTF8?, String.toUTF8_eq_toByteArray, dif_pos s.isValidUTF8]
  rfl

theorem rewritten_text (renames : Renames) (text : String) :
    rewritten renames text.toUTF8 = (redirected text renames).toUTF8 := by
  rw [rewritten, fromUTF8?_toUTF8, redirected, Option.bind_some]
  cases redirect? text renames <;> rfl

theorem stretches_intercalate (h : ∀ s ∈ names, IsName s) : stretches ("/".intercalate names).toList = names := by
  have hslash : ∀ t ∈ names.map String.toList, '/' ∉ t := by
    intro t ht
    obtain ⟨s, hs, rfl⟩ := List.mem_map.1 ht
    exact (h s hs).2.2.2
  have hfilter : (names.map String.toList).filter (!·.isEmpty) = names.map String.toList := by
    rw [List.filter_eq_self]
    intro t ht
    obtain ⟨s, hs, rfl⟩ := List.mem_map.1 ht
    simpa using (h s hs).1
  rw [String.toList_intercalate, show "/".toList = ['/'] from rfl, ← glue_eq_intercalate, solid_glue hslash, solid,
    hfilter]
  simp

theorem FreshNames.not_displaced (h : FreshNames fs loc) (hdir : loc <+: dir)
    (hat : (fs.at? (dir ++ [name])).isSome) : ¬ (shelfOf fs dir).Displaced name := by
  rw [Shelf.Displaced]
  rintro ⟨k, -, -, hk, -⟩
  rw [h dir k name hdir hk] at hat
  cases hat

theorem mem_of_mem_bare (h : c ∈ bare body) : c ∈ body := by
  unfold bare at h
  split at h
  · exact List.mem_cons_of_mem _ (List.mem_cons_of_mem _ h)
  · exact List.mem_cons_of_mem _ h
  · exact h

theorem quoted?_standing (h : ∀ new, Table.get? (String.ofList (bare body)) renames = some new → '\n' ∉ new.toList)
    (hq : q ∉ body) (hline : '\n' ∉ body) (post : List Char) : ∃ tail rest,
      successor renames q body ++ post = (standing renames q body).1 :: tail ∧
        quoted? (standing renames q body).1 tail = some ((standing renames q body).2, rest) := by
  rw [successor, standing]
  cases hnew : Table.get? (String.ofList (bare body)) renames with
  | none => exact ⟨body ++ q :: post, post, by simp, quoted?_eq_some.2 ⟨rfl, hq, hline⟩⟩
  | some new =>
      have hmem : ∀ d ∈ new.toList.takeWhile (· ≠ '"'), d ≠ '"' ∧ d ∈ new.toList := fun d hd =>
        ⟨by simpa using List.mem_takeWhile_imp hd, List.takeWhile_subset _ hd⟩
      have hsplit : ∃ rest, new.toList ++ '"' :: post = new.toList.takeWhile (· ≠ '"') ++ '"' :: rest := by
        have hs := List.takeWhile_append_dropWhile (p := (· ≠ '"')) (l := new.toList)
        cases hd : new.toList.dropWhile (· ≠ '"') with
        | nil =>
            rw [hd, List.append_nil] at hs
            exact ⟨post, by rw [hs]⟩
        | cons c r =>
            have hc : c = '"' := by
              have hhead := List.head?_dropWhile_not (· ≠ '"') new.toList
              rw [hd] at hhead
              simpa using hhead
            rw [hd, hc] at hs
            exact ⟨r ++ '"' :: post, by conv => lhs; rw [← hs, List.append_assoc, List.cons_append]⟩
      obtain ⟨rest, hrest⟩ := hsplit
      refine ⟨'.' :: '/' :: new.toList ++ '"' :: post, rest, by simp, quoted?_eq_some.2 ⟨?_, ?_, ?_⟩⟩
      · rw [List.cons_append, List.cons_append, hrest]
        rfl
      · simp only [List.mem_cons, not_or]
        exact ⟨by decide, by decide, fun hc => (hmem _ hc).1 rfl⟩
      · simp only [List.mem_cons, not_or]
        exact ⟨by decide, by decide, fun hc => h new hnew (hmem _ hc).2⟩

theorem mem_addressOf (hslash : c ≠ '/') (hback : c ≠ '\\') :
    c ∈ (addressOf loc (loc ++ rel)).toList ↔ ∃ s ∈ rel, c ∈ s.toList := by
  rw [addressOf_append, Ignore.slashed, String.toList_ofList, toList_ofChars, List.mem_map]
  constructor
  · rintro ⟨d, hd, hdc⟩
    split at hdc
    · exact absurd hdc.symm hslash
    · subst hdc
      obtain ⟨t, ht, hdt⟩ := (mem_glue hd).resolve_left hslash
      obtain ⟨s, hs, rfl⟩ := List.mem_map.1 ht
      exact ⟨s, hs, hdt⟩
  · rintro ⟨s, hs, hc⟩
    exact ⟨c, mem_glue_of_mem (List.mem_map_of_mem hs) hc, if_neg hback⟩

/-- A new name holds no line break if the old path holds none. -/
theorem Stamped.newline (h : Stamped loc (DirsBelow fs loc) fs fs' pairs) (hw : fs.WellFormed) {key new : String}
    (hget : Table.get? key (Table.ofPairs pairs) = some new) (hkey : '\n' ∉ key.toList) : '\n' ∉ new.toList := by
  obtain ⟨d, n, m, ⟨⟨rel, rfl⟩, -⟩, ⟨hm, -⟩, he⟩ := (h.mem_pairs hw _).1 (Table.mem_of_get?_ofPairs hget)
  obtain ⟨rfl, rfl⟩ := Prod.mk.inj he
  obtain ⟨bytes, hb, hs⟩ := Shelf.newName?_eq_some.1 hm
  have hn : IsName n := hw.isName (by rw [(shelfOf_eq_some.1 hb).2]; rfl)
  rw [List.append_assoc, mem_addressOf (by decide) (by decide)] at hkey ⊢
  rintro ⟨s, hs', hc⟩
  rcases List.mem_append.1 hs' with hs' | hs'
  · exact hkey ⟨s, List.mem_append_left _ hs', hc⟩
  · rw [List.mem_singleton.1 hs'] at hc
    exact (mem_stamped hn hs hc).elim (fun hc => hkey ⟨n, by simp, hc⟩) (by decide)

section

variable (hr : Region root loc w) (hfresh : FreshNames w.files loc)
  (hst : Stamped loc (DirsBelow w.files loc) w.files w'.files pairs)
  (hg : w.files.at? (loc ++ rel ++ [g]) = some (.file bytes))

include hr hfresh hst hg

theorem at?_became : w'.files.at? (loc ++ rel ++ [became w.files (loc ++ rel) g]) = some (.file bytes) := by
  have hloc : loc <+: loc ++ rel := List.prefix_append _ _
  refine at?_of_not_displaced hr hst hg (hfresh.not_displaced hloc (by rw [hg]; rfl)) fun k c hk _ _ => ?_
  rw [hfresh _ k g hloc hk] at hg
  cases hg

/-- A reference that spells the path of a file below the root is kept, or gets the new path. -/
theorem standing_of_path (hslash : NoBackslash w.files loc) (hquote : '"' ∉ ("/".intercalate (rel ++ [g])).toList)
    (hpath : String.ofList (bare body) = "/".intercalate (rel ++ [g])) :
    became w.files (loc ++ rel) g = g ∧ standing (Table.ofPairs pairs) q body = (q, body) ∨
      became w.files (loc ++ rel) g ≠ g ∧ standing (Table.ofPairs pairs) q body =
        ('"', '.' :: '/' :: ("/".intercalate (rel ++ [became w.files (loc ++ rel) g])).toList) := by
  have hsome : (w.files.at? (loc ++ rel ++ [g])).isSome := by rw [hg]; rfl
  have hfull : ∀ s ∈ rel ++ [g], IsName s ∧ '\\' ∉ s.toList :=
    hr.names hslash (by rw [← List.append_assoc]; exact hsome)
  have hget := fun v => get?_address hr hslash hst hsome (v := v)
  rw [List.append_assoc, addressOf_eq loc fun s hs => (hfull s hs).2] at hget
  have hfree := hfresh.not_displaced (List.prefix_append loc rel) hsome
  cases hnew : (shelfOf w.files (loc ++ rel)).newName? g with
  | none =>
      refine .inl ⟨by rw [became, hnew]; rfl, ?_⟩
      rw [standing, hpath]
      cases hlook : Table.get? ("/".intercalate (rel ++ [g])) (Table.ofPairs pairs) with
      | none => rfl
      | some v =>
          obtain ⟨m, hm, -⟩ := (hget v).1 hlook
          exact absurd (hnew.symm.trans hm.1) nofun
  | some m =>
      obtain ⟨b, hb, hs⟩ := Shelf.newName?_eq_some.1 hnew
      have hname := (hfull g (by simp)).1
      have hm : became w.files (loc ++ rel) g = m := by rw [became, hnew]; rfl
      rw [hm]
      refine .inr ⟨stamped_ne hname hs, ?_⟩
      have hlook := (hget _).2 ⟨m, ⟨hnew, hfree⟩, rfl⟩
      have hmfull : ∀ s ∈ rel ++ [m], '\\' ∉ s.toList ∧ '"' ∉ s.toList := by
        rw [← addressOf_eq loc fun s hs => (hfull s hs).2, mem_addressOf (by decide) (by decide)] at hquote
        intro s hs'
        rcases List.mem_append.1 hs' with hs' | hs'
        · exact ⟨(hfull s (by simp [hs'])).2, fun hc => hquote ⟨s, by simp [hs'], hc⟩⟩
        · rw [List.mem_singleton.1 hs']
          exact ⟨fun hc => (mem_stamped hname hs hc).elim (hfull g (by simp)).2 (by decide),
            fun hc => (mem_stamped hname hs hc).elim (fun hc => hquote ⟨g, by simp, hc⟩) (by decide)⟩
      have haddress := addressOf_eq loc fun s hs => (hmfull s hs).1
      have hnoquote : '"' ∉ ("/".intercalate (rel ++ [m])).toList := by
        rw [← haddress, mem_addressOf (by decide) (by decide)]
        exact fun ⟨s, hs, hc⟩ => (hmfull s hs).2 hc
      rw [List.append_assoc, haddress] at hlook
      have htake : ("/".intercalate (rel ++ [m])).toList.takeWhile (· ≠ '"') =
          ("/".intercalate (rel ++ [m])).toList := by
        rw [List.takeWhile_eq_self_iff]
        intro d hd
        simp only [decide_eq_true_eq]
        rintro rfl
        exact hnoquote hd
      rw [standing, hpath, hlook]
      dsimp only
      rw [htake]

end

theorem freshNames_iff : FreshNames fs loc ↔ ∀ e ∈ fs.entries, loc <+: e.1.dropLast →
    ∀ m ∈ (shelfOf fs e.1.dropLast).newName? (e.1.getLastD ""), fs.at? (e.1.dropLast ++ [m]) = none := by
  refine ⟨fun h e _ hloc m hm => h _ _ m hloc hm, fun h dir n m hloc hm => ?_⟩
  obtain ⟨bytes, hb, -⟩ := Shelf.newName?_eq_some.1 hm
  obtain ⟨e, he, hx⟩ := entry_of_file (shelfOf_eq_some.1 hb).2
  have hall := h e he
  rw [hx, List.dropLast_concat, List.getLastD_concat] at hall
  exact hall hloc m hm

instance (fs : FileSystem) (loc : Location) : Decidable (FreshNames fs loc) := decidable_of_iff' _ freshNames_iff

/-- A quoted string is apart from all others if there are no quotes but its own up to its end, and
none of its kind after it. -/
theorem apart_of_lone (hpre : pre.any isQuote = false) (hbody : body.any isQuote = false)
    (hpost : q ∉ post) : Apart renames pre q body post := by
  simp only [List.any_eq_false, Bool.not_eq_true] at hpre hbody
  constructor
  · rintro u c v b rest rfl ⟨hc, -⟩
    rw [hpre c (by simp)] at hc
    cases hc
  · rintro u c v b rest hu ⟨hc, hquoted, -⟩
    have hmem : c ∈ body ++ [q] := by rw [hu]; simp
    rcases List.mem_append.1 hmem with hb | hcq
    · rw [hbody c hb] at hc
      cases hc
    · obtain rfl := List.mem_singleton.1 hcq
      have hv : c ∈ v ++ post := by rw [(quoted?_eq_some.1 hquoted).1]; simp
      rcases List.mem_append.1 hv with hv | hv
      · -- the quote at the end is the only one
        have hbodyc : c ∈ body := by
          obtain ⟨v', d, rfl⟩ := (List.eq_nil_or_concat' v).resolve_left (List.ne_nil_of_mem hv)
          rw [← List.cons_append, ← List.append_assoc] at hu
          obtain ⟨hbody', -⟩ := List.append_inj' hu rfl
          rw [hbody']
          simp
        rw [hbody c hbodyc] at hc
        cases hc
      · exact hpost hv

/-- What stands where a reference to a file was, and when it leads to what the file has become. A
reference that spells a path below the root does so just if the text is in the root itself or the
file has kept its name. -/
theorem runPasses_reference (hw : w.files.WellFormed) (hroot : w.files.found w.cwd root = .ok (loc, .directory))
    (hfree : w.files.LinkFree loc) (hfresh : FreshNames w.files loc) (hrun : runPasses root w = .ok renames w')
    (hf : w.files.at? (loc ++ rel ++ [f]) = some (.file text.toUTF8))
    (htext : text.toList = pre ++ q :: (body ++ q :: post)) (hq : isQuote q = true) (hbody : q ∉ body)
    (hline : '\n' ∉ body) (hapart : Apart renames pre q body post)
    (hg : w.files.at? (loc ++ rel' ++ [g]) = some (.file bytes))
    (href : referred loc (loc ++ rel) body = loc ++ rel' ++ [g]) :
    ∃ final tail rest,
      w'.files.at? (loc ++ rel ++ [became w.files (loc ++ rel) f]) = some (.file (String.toUTF8 final)) ∧
      w'.files.at? (loc ++ rel' ++ [became w.files (loc ++ rel') g]) = some (.file (rewritten renames bytes)) ∧
      final.toList = replaced renames pre ++ (standing renames q body).1 :: tail ∧
      quoted? (standing renames q body).1 tail = some ((standing renames q body).2, rest) ∧
      (referred loc (loc ++ rel) (standing renames q body).2 = loc ++ rel' ++ [became w.files (loc ++ rel') g] ↔
        match Table.get? (String.ofList (bare body)) renames with
        | some new => settle (loc ++ rel) (stretches (new.toList.takeWhile (· ≠ '"'))) =
            loc ++ rel' ++ [became w.files (loc ++ rel') g]
        | none => became w.files (loc ++ rel') g = g) ∧
      (NoBackslash w.files loc → '"' ∉ ("/".intercalate (rel' ++ [g])).toList →
        String.ofList (bare body) = "/".intercalate (rel' ++ [g]) →
        (referred loc (loc ++ rel) (standing renames q body).2 = loc ++ rel' ++ [became w.files (loc ++ rel') g] ↔
          rel = [] ∨ became w.files (loc ++ rel') g = g)) := by
  have hr : Region root loc w := ⟨hw, leadsTo_iff.2 hroot, hfree⟩
  obtain ⟨pairs, w₁, rfl, -, -, hst, hred⟩ := runPasses_ok hr hrun
  have hat : ∀ {rel n bytes}, w.files.at? (loc ++ rel ++ [n]) = some (.file bytes) →
      w'.files.at? (loc ++ rel ++ [became w.files (loc ++ rel) n]) =
        some (.file (rewritten (Table.ofPairs pairs) bytes)) := by
    intro rel n bytes hn
    rw [hred.text _ (by rw [List.append_assoc]; exact List.prefix_append _ _), at?_became hr hfresh hst hn]
    rfl
  have hnewline : ∀ new, Table.get? (String.ofList (bare body)) (Table.ofPairs pairs) = some new →
      '\n' ∉ new.toList := by
    intro new hnew
    refine hst.newline hw hnew ?_
    rw [String.toList_ofList]
    exact fun hc => hline (mem_of_mem_bare hc)
  obtain ⟨tail, rest, htail, hquoted⟩ := quoted?_standing hnewline hbody hline (replaced (Table.ofPairs pairs) post)
  refine ⟨redirected text (Table.ofPairs pairs), tail, rest, ?_, hat hg, ?_, hquoted, ?_, ?_⟩
  · rw [hat hf, rewritten_text]
  · rw [redirected_toList, htext, replaced_apart hapart hq hbody hline, List.append_assoc, htail]
  · rw [standing]
    cases hnew : Table.get? (String.ofList (bare body)) (Table.ofPairs pairs) with
    | some new =>
        dsimp only
        rw [referred_dot]
    | none =>
        dsimp only
        rw [href]
        simp [eq_comm]
  · intro hslash hquote hpath
    rcases standing_of_path (q := q) hr hfresh hst hg hslash hquote hpath with ⟨hsame, hstand⟩ | ⟨hother, hstand⟩
    · rw [hstand, href, hsame]
      exact iff_of_true rfl (.inr rfl)
    · have hnames' : ∀ s ∈ rel' ++ [became w.files (loc ++ rel') g], IsName s := by
        have hsome : (w'.files.at? (loc ++ rel' ++ [became w.files (loc ++ rel') g])).isSome := by rw [hat hg]; rfl
        rw [List.append_assoc] at hsome
        exact names_below hred.wellFormed hsome
      rw [hstand, referred_dot, stretches_intercalate hnames', settle_names hnames', ← List.append_assoc,
        List.append_left_inj, List.append_left_inj]
      simp [hother]

/-- A page in the root and one below it, each with a picture of the root in it. -/
def gallery : World :=
  ⟨⟨[(["r"], .directory), (["r", "index.html"], .file "<img src='/plane.svg'>".toUTF8),
    (["r", "plane.svg"], .file "x".toUTF8), (["r", "about"], .directory),
    (["r", "about", "index.html"], .file "<img src='/plane.svg'>".toUTF8)]⟩, [], []⟩

theorem gallery_leads_from_root : ∃ renames w', runPasses ⟨"r"⟩ gallery = .ok renames w' ∧
    referred ["r"] ["r"] (standing renames '\'' "/plane.svg".toList).2 = ["r", "plane-2d711642.svg"] := by
  obtain ⟨renames, w', hrun⟩ := succeeds_iff.1 (show succeeds (runPasses ⟨"r"⟩) gallery = true by decide +kernel)
  have hroot : gallery.files.found gallery.cwd ⟨"r"⟩ = .ok (["r"], .directory) := by decide +kernel
  have hf : gallery.files.at? (["r"] ++ [] ++ ["index.html"]) = some (.file "<img src='/plane.svg'>".toUTF8) := by
    decide +kernel
  have htext : "<img src='/plane.svg'>".toList =
      "<img src=".toList ++ '\'' :: ("/plane.svg".toList ++ '\'' :: ">".toList) := by decide +kernel
  have hg : gallery.files.at? (["r"] ++ [] ++ ["plane.svg"]) = some (.file "x".toUTF8) := by decide +kernel
  obtain ⟨final, tail, rest, -, -, -, -, -, h⟩ := runPasses_reference (by decide +kernel) hroot (by decide +kernel)
    (by decide +kernel) hrun hf htext (by decide +kernel) (by decide +kernel) (by decide +kernel)
    (apart_of_lone (by decide +kernel) (by decide +kernel) (by decide +kernel)) hg (by decide +kernel)
  have hname : became gallery.files ["r"] "plane.svg" = "plane-2d711642.svg" := by decide +kernel
  exact ⟨renames, w', hrun, hname ▸ (h (by decide +kernel) (by decide +kernel) (by decide +kernel)).2 (.inl rfl)⟩

/-- In the page below the root the new path is looked for beside the page, where nothing is. -/
theorem gallery_misled_below : gallery.files.WellFormed ∧
    gallery.files.found gallery.cwd ⟨"r"⟩ = .ok (["r"], .directory) ∧ gallery.files.LinkFree ["r"] ∧
    FreshNames gallery.files ["r"] ∧ referred ["r"] ["r", "about"] "/plane.svg".toList = ["r", "plane.svg"] ∧
    became gallery.files ["r"] "plane.svg" = "plane-2d711642.svg" ∧
    ∃ renames w', runPasses ⟨"r"⟩ gallery = .ok renames w' ∧
      w'.files.at? ["r", "about", "index.html"] = some (.file "<img src=\"./plane-2d711642.svg\">".toUTF8) ∧
      referred ["r"] ["r", "about"] "./plane-2d711642.svg".toList ≠ ["r", "plane-2d711642.svg"] ∧
      w'.files.at? (referred ["r"] ["r", "about"] "./plane-2d711642.svg".toList) = none := by
  refine ⟨by decide +kernel, by decide +kernel, by decide +kernel, by decide +kernel, by decide, by decide +kernel, ?_⟩
  obtain ⟨renames, w', hrun, h⟩ := yields_iff.1 (show yields (runPasses ⟨"r"⟩) gallery (fun _ w' =>
    w'.files.at? ["r", "about", "index.html"] = some (.file "<img src=\"./plane-2d711642.svg\">".toUTF8) ∧
      w'.files.at? (referred ["r"] ["r", "about"] "./plane-2d711642.svg".toList) = none) = true by decide +kernel)
  obtain ⟨hpage, hnone⟩ := of_decide_eq_true h
  exact ⟨renames, w', hrun, hpage, by decide, hnone⟩

end SiteTree.Asset
