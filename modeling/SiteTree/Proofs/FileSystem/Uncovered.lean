import SiteTree.Proofs.FileSystem.Written
import SiteTree.Proofs.Path.Parent

/-!
What a copy through a path changes, and that the directories made above its target do not lead to a file that was
there before, as long as no double dot comes behind what was there.
-/

namespace SiteTree.FileSystem

open SiteTree.Path

variable {fs fs' : FileSystem} {follow : Bool} {k m n : Nat} {cwd cur loc d x y : Location} {base names l rest : List String}
  {s : String} {node : FileNode} {place : Place} {p q source : Path} {bytes : ByteArray}

theorem steps_cases (a : List Char) : steps a = stretches a ∨ steps a = stretches a ++ [""] := by
  rw [steps_eq]
  split
  · exact .inr rfl
  · exact .inl rfl

section

variable (ha : p.isAbsolute = true)

include ha

theorem resolve_of_absolute (fs : FileSystem) (cwd : Location) (follow : Bool) :
    fs.resolve cwd follow p = fs.resolveSteps follow [] (steps p.text.toList) := by
  have hne : p.isEmpty = false := by simpa [Path.isEmpty] using ne_empty_of_absolute ha
  rw [resolve, if_neg (by simp [hne]), startOf, if_pos (by simpa [isAbsolute] using ha)]

theorem locate_of_absolute (fs : FileSystem) (cwd : Location) :
    fs.locate cwd p = fs.resolveSteps false [] (stretches p.text.toList) := by
  have hne : p.isEmpty = false := by simpa [Path.isEmpty] using ne_empty_of_absolute ha
  rw [locate, if_neg (by simp [hne]), startOf, if_pos (by simpa [isAbsolute] using ha), target_fst]

/-- A path whose stretches lead to a directory leads there. -/
theorem found_of_reaches (hr : fs.Reaches (stretches p.text.toList) loc) (cwd : Location) :
    fs.found cwd p = .ok (loc, .directory) := by
  refine found_eq_ok.2 ?_
  rw [resolve_of_absolute ha]
  rcases steps_cases p.text.toList with he | he
  · rw [he]
    exact hr.walk_eq
  · obtain ⟨m, hm⟩ := hr.walk_below true (fun hc => ne_empty_of_mem_stretches hc rfl) (List.cons_ne_nil "" [])
    rw [he, hm]
    exact Leads.walk_eq (.skip hr.directory (.inl rfl) (.stop hr.directory))

end

/-- Dots behind a directory do not lead out of it. -/
theorem Reaches.dots (h : fs.Reaches l loc) (hl : "" ∉ l) (k : Nat) : fs.Reaches (l ++ List.replicate k ".") loc := by
  by_cases hk : k = 0
  · simpa [hk] using h
  · obtain ⟨m, hm⟩ := h.walk_below true hl (show List.replicate k "." ≠ [] by simpa using hk)
    refine Leads.of_walk (hm.trans ?_)
    clear hm hk
    induction k with
    | zero => exact Leads.walk_eq (.stop h.directory)
    | succ k ih => exact Leads.walk_eq (.skip h.directory (.inr rfl) (.of_walk ih))

/-- Nothing is found by a name that a directory does not have. -/
theorem Leads.not_found_below (hn : fs.at? (loc ++ [s]) = none) (hs : IsStep s) :
    ¬ fs.Leads follow n loc (List.replicate m "." ++ s :: rest) (.found y node) := by
  induction m with
  | zero =>
      intro h
      cases h with
      | skip _ he => exact he.elim hs.1 hs.2.1
      | up => exact hs.2.2 rfl
      | stay _ _ he | jump _ _ he | enter _ _ he => cases hn.symm.trans he
  | succ m ih =>
      intro h
      obtain ⟨t, ht⟩ : ∃ t, t = "." := ⟨_, rfl⟩
      rw [List.replicate_succ, List.cons_append] at h
      generalize List.replicate m "." ++ s :: rest = r at h ih
      rw [← ht] at h
      cases h with
      | skip _ _ hl => exact ih hl
      | up => exact absurd ht (by decide)
      | stay _ hd | jump _ hd | enter _ hd => exact hd.2.1 ht

theorem not_mem_of_stretches {a : List Char} (hl : stretches a = l ++ rest) : "" ∉ l :=
  fun hc => ne_empty_of_mem_stretches (s := "") (a := a) (by rw [hl]; simp [hc]) rfl

theorem not_found_of_fresh (ha : p.isAbsolute = true)
    (hl : stretches p.text.toList = l ++ List.replicate m "." ++ s :: rest) (hr : fs.Reaches l loc)
    (hn : fs.at? (loc ++ [s]) = none) (hs : IsStep s) : fs.found cwd p ≠ .ok (y, node) := by
  intro hfound
  have hempty : "" ∉ l := not_mem_of_stretches (hl.trans (List.append_assoc _ _ _))
  replace hfound := found_eq_ok.1 hfound
  rw [resolve_of_absolute ha] at hfound
  obtain ⟨rest', hsteps⟩ : ∃ rest', steps p.text.toList = l ++ (List.replicate m "." ++ s :: rest') := by
    rcases steps_cases p.text.toList with he | he
    · exact ⟨rest, by rw [he, hl, List.append_assoc]⟩
    · exact ⟨rest ++ [""], by rw [he, hl]; simp⟩
  obtain ⟨m', hm⟩ := hr.walk_below true hempty (show List.replicate m "." ++ s :: rest' ≠ [] by simp)
  rw [hsteps, hm] at hfound
  exact Leads.not_found_below hn hs (.of_walk hfound)

/-- The last name comes behind what was there, or there is none. -/
theorem parent_stretches (hl : base ++ names = l ++ List.replicate m "." ++ s :: List.replicate k ".") (hdot : "." ∉ base) :
    (∃ names', l = base ++ names' ∧ names = names' ++ List.replicate m "." ++ s :: List.replicate k ".") ∨
      ∃ k', names = List.replicate k' "." := by
  have hnot : ∀ t : List String, (∀ c ∈ t, c = ".") → base = l ++ t → t = [] := by
    intro t ht he
    exact List.eq_nil_iff_forall_not_mem.2 fun c hc => hdot (he ▸ List.mem_append_right l (ht c hc ▸ hc))
  rcases List.append_eq_append_iff.1 hl with ⟨r, hr, hnames⟩ | ⟨r, hbase, hr⟩
  · -- The base ends in front of the last name.
    rcases List.append_eq_append_iff.1 hr with ⟨t, ht, hrt⟩ | ⟨t, ht, hrt⟩
    · obtain rfl := hnot t (fun c hc => List.eq_of_mem_replicate (hrt ▸ List.mem_append_left r hc)) ht
      exact .inl ⟨[], by simpa using ht.symm, by rw [hnames, show r = List.replicate m "." by simpa using hrt.symm]; rfl⟩
    · exact .inl ⟨t, ht, by rw [hnames, hrt]⟩
  · cases r with
    | nil =>
        rw [List.append_nil] at hbase
        have hm := hnot _ (fun c hc => List.eq_of_mem_replicate hc) hbase
        rw [hm, List.append_nil] at hbase
        exact .inl ⟨[], by simpa using hbase.symm, by rw [hm, show names = s :: List.replicate k "." by simpa using hr.symm]; rfl⟩
    | cons c r =>
        rw [List.cons_append, List.cons.injEq] at hr
        have hall : ∀ c ∈ names, c = "." := fun c hc => List.eq_of_mem_replicate (hr.2 ▸ List.mem_append_right r hc)
        exact .inr ⟨names.length, List.eq_replicate_iff.2 ⟨rfl, hall⟩⟩

/-- Without double dots behind the base, the parent of a path goes on from the base too, or only dots come behind it. -/
theorem parent_behind (ha : p.isAbsolute = true) (hl : stretches p.text.toList = base ++ names) (hdot : "." ∉ base)
    (hup : ".." ∉ names) (hq : p.parent? = some q) : (∃ k, names = List.replicate k ".") ∨
      q.isAbsolute = true ∧ ∃ names' s m k, stretches q.text.toList = base ++ names' ∧ ".." ∉ names' ∧ IsStep s ∧
        stretches p.text.toList = stretches q.text.toList ++ List.replicate m "." ++ s :: List.replicate k "." := by
  obtain ⟨hqa, s, m, k, hsplit, hs⟩ := parent_of_absolute ha hq
  have hmem : s ∈ stretches p.text.toList := by simp [hsplit]
  rcases parent_stretches (hl.symm.trans hsplit) hdot with ⟨names', hq', rfl⟩ | hk
  · refine .inr ⟨hqa, names', s, m, k, hq', fun hc => hup (by simp [hc]), ⟨ne_empty_of_mem_stretches hmem, hs, ?_⟩, hsplit⟩
    rintro rfl
    exact hup (by simp)
  · exact .inl hk

theorem makeDirectory_ne_missing_of_reaches (ha : p.isAbsolute = true) (hr : fs.Reaches (stretches p.text.toList) loc) :
    fs.makeDirectory cwd p ≠ .error .missing := by
  obtain ⟨place, hplace, -⟩ := Leads.exists_unfollowed hr
  have hloc : fs.locate cwd p = .ok place := (locate_of_absolute ha fs cwd).trans hplace.walk_eq
  rw [makeDirectory, hloc]
  cases place <;> simp [bind, Except.bind]

/-- A directory that is made is empty. -/
theorem fresh_of_makeDirectory (h : fs.WellFormed) (ha : p.isAbsolute = true) (hm : fs.makeDirectory cwd p = .ok fs') :
    ∃ loc, fs'.Reaches (stretches p.text.toList) loc ∧ ∀ s, fs'.at? (loc ++ [s]) = none := by
  obtain ⟨parent, name, slashed, hloc, rfl⟩ := makeDirectory_eq_ok.1 hm
  rw [locate_of_absolute ha] at hloc
  have hl := Leads.of_walk hloc
  refine ⟨parent ++ [name], hl.fill (h.grows_put hl.vacancy.2.2) (at?_put_self fs _ (by simp)) true, fun s => ?_⟩
  exact at?_put_below (List.prefix_append _ _) (by simp)

section

variable (h : fs.WellFormed) (hbase : fs.Reaches base d) (hdot : "." ∉ base)

include h hbase hdot

/-- Behind what is there, and without double dots, either nothing is made or the way leads to an empty directory. -/
theorem makeLevels_fresh (n : Nat) {p : Path} {names : List String} (ha : p.isAbsolute = true)
    (hl : stretches p.text.toList = base ++ names) (hup : ".." ∉ names) (hm : makeLevels cwd n p fs = .ok fs') :
    fs' = fs ∨ ∃ loc, fs'.Reaches (stretches p.text.toList) loc ∧ ∀ s, fs'.at? (loc ++ [s]) = none := by
  induction n generalizing p names fs' with
  | zero => cases hm
  | succ n ih =>
      have he : p.isEmpty = false := by simpa [Path.isEmpty] using ne_empty_of_absolute ha
      by_cases hmake : fs.makeDirectory cwd p = .error .missing
      · cases hq : p.parent? with
        | none => simp only [makeLevels, he, hmake, hq] at hm; cases hm
        | some q =>
            rcases parent_behind ha hl hdot hup hq with ⟨k, hk⟩ | ⟨hqa, names', s, m, k, hq', hup', hstep, hsplit⟩
            · rw [hk] at hl
              exact absurd hmake (makeDirectory_ne_missing_of_reaches ha (hl ▸ hbase.dots (not_mem_of_stretches hl) k))
            · have hw₁ := (makeLevels_grows h cwd n q).1
              rw [makeLevels_above he hmake hq] at hm
              cases hlevels : makeLevels cwd n q fs with
              | error e => rw [hlevels] at hm; cases hm
              | ok fs₁ =>
                  rw [hlevels] at hm hw₁
                  rcases makeLevel_ok hm with hmake₁ | ⟨hd, rfl⟩
                  · exact .inr (fresh_of_makeDirectory hw₁ ha hmake₁)
                  · rcases ih hqa hq' hup' hlevels with rfl | ⟨loc, hr, hnone⟩
                    · exact .inl rfl
                    -- What lies behind an empty directory is not there.
                    rw [isDirectory] at hd
                    cases hf : fs'.found cwd p with
                    | error cause => rw [hf] at hd; cases hd
                    | ok there => exact absurd hf (not_found_of_fresh ha hsplit hr (hnone s) hstep)
      · rw [makeLevels_last he hmake] at hm
        rcases makeLevel_ok hm with hmake | ⟨-, rfl⟩
        · exact .inr (fresh_of_makeDirectory h ha hmake)
        · exact .inl rfl

/-- What is not there before the directories above it are made is not there after that. -/
theorem not_found_of_makeParent {y : Location} {node : FileNode} (ha : p.isAbsolute = true)
    (hl : stretches p.text.toList = base ++ names) (hup : ".." ∉ names) (hnone : fs.pathExists cwd p = false)
    (hq : p.parent? = some q) (hm : fs.makeDirectories cwd q = .ok fs') : fs'.found cwd p ≠ .ok (y, node) := by
  intro hfound
  rcases parent_behind ha hl hdot hup hq with ⟨k, hk⟩ | ⟨hqa, names', s, m, k, hq', hup', hstep, hsplit⟩
  · rw [hk] at hl
    rw [pathExists, found_of_reaches ha (hl ▸ hbase.dots (not_mem_of_stretches hl) k) cwd] at hnone
    cases hnone
  · rcases makeLevels_fresh h hbase hdot _ hqa hq' hup' hm with rfl | ⟨loc, hr, hnone⟩
    · rw [pathExists, hfound] at hnone
      cases hnone
    · exact not_found_of_fresh ha hsplit hr (hnone s) hstep hfound

end

/-- A way to a file that is written leads to that file, unless a slash keeps it from leading anywhere. -/
theorem Leads.walk_put (h : fs.Leads true n cur l place) (hfile : ∀ loc node, place = .found loc node → node.IsFile)
    (hput : fs'.at? place.location = some (.file bytes)) (hother : ∀ x, x ≠ place.location → fs'.at? x = fs.at? x) :
    fs'.walk true n cur l = .ok (.found place.location (.file bytes)) ∨ fs'.walk true n cur l = .error .notDirectory := by
  have hkept : ∀ {x node}, fs.at? x = some node → ¬ node.IsFile → fs'.at? x = some node := by
    intro x node hx hnode
    rw [hother x, hx]
    rintro rfl
    cases place with
    | found loc there =>
        cases hx.symm.trans h.at?_found
        exact hnode (hfile loc _ rfl)
    | vacant parent name slashed => cases hx.symm.trans h.vacancy.2.2
  induction h with
  | stop h =>
      rw [Place.location] at hput
      exact .inl (by simp [walk_succ, walkWith, hput, Place.location])
  | skip h hs _ ih =>
      have hrest := ih hfile hput hother
      rw [walk_succ] at hrest ⊢
      simpa [walkWith, hkept h FileNode.not_isFile_directory, hs] using hrest
  | up h _ ih =>
      have hrest := ih hfile hput hother
      rw [walk_succ] at hrest ⊢
      simpa [walkWith, hkept h FileNode.not_isFile_directory] using hrest
  | vacant h hs hn =>
      rw [Place.location] at hput
      left
      simp [walk_succ, walkWith, hkept h FileNode.not_isFile_directory, hs.1, hs.2.1, hs.2.2, hput, Place.location]
  | slashed h hs hn =>
      rw [Place.location] at hput
      right
      simp [walk_succ, walkWith, hkept h FileNode.not_isFile_directory, hs.1, hs.2.1, hs.2.2, hput]
  | stay h hs hn hf => cases hf
  | jump h hs hn hf _ ih =>
      have hrest := ih hfile hput hother
      simpa [walk_succ, walkWith, hkept h FileNode.not_isFile_directory, hs.1, hs.2.1, hs.2.2, hkept hn (FileNode.not_isFile_link _)] using hrest
  | @enter n cur s node rest place h hs hn hlink hl ih =>
      have hrest := ih hfile hput hother
      rw [walk_succ] at hrest ⊢
      by_cases he : cur ++ [s] = place.location
      · rw [← he] at hput
        simpa [walkWith, hkept h FileNode.not_isFile_directory, hs.1, hs.2.1, hs.2.2, hput] using hrest
      · have hnode := (hother _ he).trans hn
        cases node with
        | link target => exact absurd rfl (hlink target)
        | file old => simpa [walkWith, hkept h FileNode.not_isFile_directory, hs.1, hs.2.1, hs.2.2, hnode] using hrest
        | directory => simpa [walkWith, hkept h FileNode.not_isFile_directory, hs.1, hs.2.1, hs.2.2, hnode] using hrest

/-- A file is written where its path leads, and what was written there can be written again. -/
theorem write_again (hw : fs.WellFormed) (h : fs.write cwd p bytes = .ok fs') : ∃ place,
    fs.resolve cwd true p = .ok place ∧ (∀ loc node, place = .found loc node → node.IsFile) ∧ fs'.WellFormed ∧
      fs'.at? place.location = some (.file bytes) ∧ (∀ y, y ≠ place.location → fs'.at? y = fs.at? y) ∧
      ∀ again fs'', fs'.write cwd p again = .ok fs'' → fs'' = fs'.put place.location (.file again) := by
  have ho := isOpen_of_write h
  obtain ⟨place, hr, rfl, hfile⟩ := write_ok ho h
  have hl := leads_of_resolve hr
  obtain ⟨hne, dir, name, heq, hd, hname⟩ := hw.parent_of_place hl (fun s hs => not_slash_of_mem_steps hs) hfile
  have hself : (fs.put place.location (.file bytes)).at? place.location = some (.file bytes) :=
    at?_put_self fs _ (by simp [heq])
  have hother : ∀ y, y ≠ place.location → (fs.put place.location (.file bytes)).at? y = fs.at? y :=
    fun y hy => hw.at?_put hne hy
  refine ⟨place, hr, hfile, by rw [heq]; exact hw.put hd hname, hself, hother, fun again fs'' hagain => ?_⟩
  obtain ⟨place', hr', rfl, -⟩ := write_ok ho hagain
  rcases hl.walk_put hfile hself hother with he | he
  · cases (leads_of_resolve hr').walk_eq.symm.trans he
    rfl
  · cases (leads_of_resolve hr').walk_eq.symm.trans he

/-- A copy changes the one file that its path leads to. If that is the file it reads, nothing is left in it. -/
theorem copy_place (hw : fs.WellFormed) (h : fs.copy cwd source p = .ok fs') : ∃ place loc bytes,
    fs.resolve cwd true p = .ok place ∧ (∀ loc node, place = .found loc node → node.IsFile) ∧
      fs.found cwd source = .ok (loc, .file bytes) ∧ (∀ y, y ≠ place.location → fs'.at? y = fs.at? y) ∧
      fs'.at? place.location = some (.file (if loc = place.location then .empty else bytes)) := by
  rw [copy] at h
  cases hf : fs.found cwd source with
  | error cause => rw [hf] at h; cases h
  | ok there =>
      obtain ⟨loc, node⟩ := there
      rw [hf] at h
      cases node with
      | link target => cases h
      | directory => cases h
      | file bytes =>
          cases hclear : fs.write cwd p .empty with
          | error cause => simp [hclear, bind, Except.bind] at h
          | ok cleared =>
              simp only [hclear, bind, Except.bind] at h
              obtain ⟨place, hr, hfile, hcleared, hself, hother, hagain⟩ := write_again hw hclear
              have hne : cleared.at? place.location ≠ some .directory := by simp [hself]
              have hnil : place.location ≠ [] := by
                intro hnil
                rw [hnil] at hself
                cases hself
              have hput : ∀ again, (∀ y, y ≠ place.location → (cleared.put place.location (.file again)).at? y = fs.at? y) ∧
                  (cleared.put place.location (.file again)).at? place.location = some (.file again) := fun again =>
                ⟨fun y hy => (hcleared.at?_put hne hy).trans (hother y hy), at?_put_self cleared _ hnil⟩
              refine ⟨place, loc, bytes, hr, hfile, rfl, ?_⟩
              by_cases he : loc = place.location
              · rw [if_pos he]
                rw [he, hself] at h
                rw [hagain _ _ h]
                exact hput .empty
              · have hat : cleared.at? loc = some (.file bytes) :=
                  (hother loc he).trans (leads_of_resolve (found_eq_ok.1 hf)).at?_found
                rw [if_neg he]
                rw [hat] at h
                rw [hagain _ _ h]
                exact hput bytes

end SiteTree.FileSystem
