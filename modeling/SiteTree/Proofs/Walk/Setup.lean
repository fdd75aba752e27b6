import SiteTree.Proofs.EntryName
import SiteTree.Proofs.Walk.Layout

/-!
A walk through a source tree without links into a directory that it passes over: if it succeeds, it has
emitted the files that the tree contributes, in their order, and what every emission adds to, it has kept.
In particular the directory holds what the layout of the tree says, and nothing else.
-/

namespace SiteTree.Walk

open SiteTree.Action FileSystem EntryName SiteTree.Path

/-- What a walk starts from: the source, the tree it is in, and the directory to render into. -/
structure Setup where
  limits : Limits
  links : List LinkKind
  source : Path
  loc : Location
  base : List String
  top : Location
  files : FileSystem
  spells : source.Spells loc
  linkFree : files.LinkFree []
  confined : Confined base top files files
  noUp : ".." ∉ base
  passed : ∀ rel, loc ++ rel = top → passedOver limits source rel = true

namespace Setup

variable {S : Setup} {options : Options} {rel target : List String} {dest : Path} {found : List Contribution}
  {w w' w₀ w₁ : World} {n m : Nat} {name : String} {entry : Entry} {entries : List Entry} {e : Expansion} {u : Unit}

/-- A directory of the source, with the place that its contents are to go to. -/
structure Enters (S : Setup) (options : Options) (rel target : List String) (dest : Path) : Prop where
  root : options.sourceRoot = S.source
  links : options.links = S.links
  directory : S.files.at? (S.loc ++ rel) = some .directory
  off : ¬ S.top <+: S.loc ++ rel
  names : ∀ t ∈ target, IsName t
  spells : dest.Spells (S.base ++ target)

def entryOf (S : Setup) (rel : List String) (name : String) : Entry :=
  ⟨name, S.source.descend (rel ++ [name]), isDirectoryAt S.files (S.loc ++ (rel ++ [name]))⟩

abbrev finds (S : Setup) (n : Nat) (rel target : List String) (scope : Scope) : List Contribution :=
  contributions S.limits S.files S.source S.loc n rel target scope

/-- The file that an entry of the directory is, under one of its expansions. -/
def fileOf (S : Setup) (rel target : List String) (name : String) (e : Expansion) : Contribution :=
  ⟨S.loc ++ (rel ++ [name]), target ++ [e.name], e.scope⟩

/-- A file of the directory that has been emitted, under a name that fits. -/
structure Emits (S : Setup) (fits : String → Prop) (options : Options) (rel target : List String) (dest : Path)
    (name : String) (e : Expansion) (w w' : World) : Prop where
  enters : S.Enters options rel target dest
  isName : IsName name
  fits : fits e.name
  entry : name = Stylesheet.entryName → e.name = Stylesheet.entryName
  off : ¬ S.top <+: S.loc ++ (rel ++ [name])
  file : ∃ bytes, S.files.at? (S.loc ++ (rel ++ [name])) = some (.file bytes)
  run : emit { options with scope := e.scope } (S.entryOf rel name).path (dest.child e.name) w = .ok () w'

/-- What holds of the files that have been emitted so far, if every emission adds its own. -/
structure Keeping (S : Setup) where
  fits : String → Prop
  holds : List Contribution → FileSystem → Prop
  isName : ∀ {s}, fits s → IsName s
  emits : ∀ {options rel target dest name e found} {w w' : World}, S.Emits fits options rel target dest name e w w' →
    Confined S.base S.top S.files w.files → holds found w.files →
      Confined S.base S.top S.files w'.files ∧ holds (found ++ [S.fileOf rel target name e]) w'.files

variable {K : S.Keeping}

/-- The walk has come to this world, having found these files. -/
structure Reached (K : S.Keeping) (found : List Contribution) (w : World) : Prop where
  confined : Confined S.base S.top S.files w.files
  holds : K.holds found w.files

theorem Reached.congr (h : Reached K found w) (hf : w'.files = w.files) : Reached K found w' :=
  ⟨hf ▸ h.confined, hf ▸ h.holds⟩

/-- A walk that succeeds adds what the directory contributes, however deep one looks for that. -/
def Lays (K : S.Keeping) (n : Nat) : Prop :=
  ∀ {options rel target dest found w w' m}, S.Enters options rel target dest →
    MeetsOnly K.fits S.limits n options (S.source.descend rel) dest w → Reached K found w → n ≤ m →
    render S.limits n options (S.source.descend rel) dest w = .ok () w' →
    Reached K (found ++ S.finds m rel target options.scope) w'

theorem wellFormed (S : Setup) : S.files.WellFormed := S.confined.wellFormed

/-- Nothing in the source has changed. -/
theorem at?_eq (h : Confined S.base S.top S.files w.files) (hoff : ¬ S.top <+: S.loc ++ rel) (name : String) :
    w.files.at? (S.loc ++ (rel ++ [name])) = S.files.at? (S.loc ++ (rel ++ [name])) := by
  by_cases htop : S.top <+: S.loc ++ (rel ++ [name])
  · rw [← List.append_assoc, List.prefix_concat_iff] at htop
    rw [← List.append_assoc, ← htop.resolve_right hoff, h.directory, S.confined.directory]
  · exact h.within _ htop

theorem Enters.leadsTo (he : S.Enters options rel target dest) :
    S.files.LeadsTo [] S.source S.loc ∧ S.files.LeadsTo [] (S.source.descend rel) (S.loc ++ rel) := by
  have hloc := S.wellFormed.directory_above he.directory (List.prefix_append _ _)
  have hroot := leadsTo_of_spells S.wellFormed S.spells hloc []
  exact ⟨hroot, hroot.descend S.wellFormed he.directory⟩

theorem enter_directory {descend : Options → Path → Path → Action Unit} (hd : entry.isDirectory = true) :
    enter descend options dest entry e =
      descend { options with scope := e.scope } entry.path (innerDest dest e) := by
  obtain ⟨form, name, scope⟩ := e
  cases form <;> simp [enter, innerDest, hd]

theorem enter_file {descend : Options → Path → Path → Action Unit} (hd : entry.isDirectory = false) :
    enter descend options dest entry e = if e.form = .loop then throw (.loop entry.name .onFile)
      else emit { options with scope := e.scope } entry.path (dest.child e.name) := by
  obtain ⟨form, name, scope⟩ := e
  cases form <;> simp [enter, hd]

/-- The entry of every stylesheet directory is taken under its own name. -/
theorem name_of_entry {scope : Scope} {expansions : List Expansion}
    (h : expand Stylesheet.entryName scope = .ok expansions) (he : e ∈ expansions) :
    e.name = Stylesheet.entryName := by
  cases (expand_literal (by decide +kernel) scope).symm.trans h
  obtain rfl := List.mem_singleton.1 he
  rfl

/-- The source is where it was, whatever has been emitted. -/
theorem Enters.leadsTo_now (he : S.Enters options rel target dest) (h : Confined S.base S.top S.files w.files) :
    w.files.at? (S.loc ++ rel) = some .directory ∧ w.files.LeadsTo w.cwd (S.source.descend rel) (S.loc ++ rel) := by
  have hd : w.files.at? (S.loc ++ rel) = some .directory := by rw [h.within _ he.off, he.directory]
  have hloc : w.files.at? S.loc = some .directory := h.wellFormed.directory_above hd (List.prefix_append _ _)
  exact ⟨hd, (leadsTo_of_spells h.wellFormed S.spells hloc w.cwd).descend h.wellFormed hd⟩

section

variable (h : Reached K found w) (he : S.Enters options rel target dest)

include h he in
theorem listing_ok (hl : listing options (S.source.descend rel) dest w = .ok entries w') :
    w'.files = w.files ∧ entries = (S.files.children (S.loc ++ rel)).map (S.entryOf rel) := by
  obtain ⟨u, w₁, hp, hentries⟩ := bind_eq_ok hl
  have hfiles := progress_keeps (J := (· = w.files)) .exploring (options.label (S.source.descend rel) dest) w rfl
  rw [after_ok hp] at hfiles
  have hc : Confined S.base S.top S.files w₁.files := hfiles ▸ h.confined
  obtain ⟨hd, hleads⟩ := he.leadsTo_now hc
  have hsame : ∀ name, w₁.files.at? (S.loc ++ rel ++ [name]) = S.files.at? (S.loc ++ (rel ++ [name])) := by
    intro name
    rw [List.append_assoc, at?_eq hc he.off]
  rw [entriesOf_eq hc.wellFormed hleads fun s t ht => S.linkFree _ t List.nil_prefix (hsame s ▸ ht)] at hentries
  cases hentries
  have hchildren : w'.files.children (S.loc ++ rel) = S.files.children (S.loc ++ rel) :=
    children_congr fun name => by rw [hsame, ← List.append_assoc]
  refine ⟨hfiles, ?_⟩
  rw [hchildren]
  refine List.map_congr_left fun name _ => ?_
  rw [entryOf, descend_append, isDirectoryAt, isDirectoryAt, hsame]

include he in
/-- What the layout passes over is what the walk passes over. -/
theorem passedOver_eq (hn : IsName name) : passedOver S.limits S.source (rel ++ [name]) =
    (S.limits.skip.any (·.alike (S.entryOf rel name).path) ||
      S.limits.ignore.hides ((S.entryOf rel name).path.relativeTo options.sourceRoot)) := by
  have hnames : ∀ s ∈ rel ++ [name], IsName s := by
    have hrel := names_below S.wellFormed (show (S.files.at? (S.loc ++ rel)).isSome by rw [he.directory]; rfl)
    simpa [or_imp, forall_and] using ⟨hrel, hn⟩
  rw [he.root]
  exact passedOver_descend he.leadsTo.1.1 hnames (by simp)

include he in
/-- The contents of a directory go to the place of its expansion. -/
theorem Enters.inner (hd : (S.entryOf rel name).isDirectory = true)
    (hpass : passedOver S.limits S.source (rel ++ [name]) = false) (hs : e.form ≠ .loop → IsName e.name) :
    S.Enters { options with scope := e.scope } (rel ++ [name]) (innerTarget target e) (innerDest dest e) := by
  refine ⟨he.root, he.links, isDirectoryAt_iff.1 hd, not_prefix_of_entered S.passed he.off hpass, ?_, ?_⟩
  · rw [innerTarget]
    split
    · exact he.names
    · next hloop => simpa [or_imp, forall_and] using ⟨he.names, hs hloop⟩
  · rw [innerTarget, innerDest]
    split
    · exact he.spells
    · next hloop =>
      rw [← List.append_assoc]
      exact (he.spells.child (hs hloop)).1

/-- What stands in the source and is no directory is a file. -/
theorem isFile_of_standing {x : Location} (hsome : (S.files.at? x).isSome) (hd : isDirectoryAt S.files x = false) :
    ∃ bytes, S.files.at? x = some (.file bytes) := by
  obtain ⟨node, hnode⟩ := Option.isSome_iff_exists.1 hsome
  cases node with
  | file bytes => exact ⟨bytes, hnode⟩
  | link t => exact absurd hnode (S.linkFree x t List.nil_prefix)
  | directory =>
      rw [isDirectoryAt_iff.2 hnode] at hd
      cases hd

variable (hsome : (S.files.at? (S.loc ++ (rel ++ [name]))).isSome) (ih : Lays K n) (hm : n ≤ m)
  (hfit : MeetsOnly K.fits S.limits (n + 1) options (S.source.descend rel) dest w₀)

include h he hsome ih hm hfit

/-- One expansion adds the file that it is, or what the directory that it is contributes. -/
theorem enter_lays (hcomes : Comes S.limits n options (S.source.descend rel) dest w₀ (S.entryOf rel name) e w)
    (hrun : enter (render S.limits n) options dest (S.entryOf rel name) e w = .ok () w') :
    Reached K (found ++ if isDirectoryAt S.files (S.loc ++ (rel ++ [name])) then
      S.finds m (rel ++ [name]) (innerTarget target e) e.scope else [S.fileOf rel target name e]) w' := by
  have hs : e.form ≠ .loop → K.fits e.name := hfit e (.own hcomes)
  have hbelow : (S.entryOf rel name).isDirectory = true → MeetsOnly K.fits S.limits n { options with scope := e.scope }
      (S.entryOf rel name).path (innerDest dest e) w := fun hd e' hmeets => hfit e' (.inner hcomes hd hmeets)
  obtain ⟨entries, expansions, w₁, w₂, -, -, hskip, hhides, hexp, hcome⟩ := hcomes
  have hn : IsName name := S.wellFormed.isName_of_mem hsome name (by simp)
  have hpass : passedOver S.limits S.source (rel ++ [name]) = false := by
    rw [passedOver_eq he hn, hskip, hhides]
    rfl
  split
  · next hd =>
    rw [enter_directory hd] at hrun
    exact ih (he.inner hd hpass fun hloop => K.isName (hs hloop)) (hbelow hd) h hm hrun
  · next hd =>
    replace hd : isDirectoryAt S.files (S.loc ++ (rel ++ [name])) = false := by simpa using hd
    rw [enter_file hd] at hrun
    split at hrun
    · cases hrun
    · next hloop =>
      have hentry : name = Stylesheet.entryName → e.name = Stylesheet.entryName := by
        rintro rfl
        obtain ⟨before, rest, rfl, -⟩ := hcome
        exact name_of_entry hexp (by simp)
      have hoff := not_prefix_of_entered S.passed he.off hpass
      have hfile := isFile_of_standing hsome hd
      obtain ⟨hconfined, hholds⟩ := K.emits ⟨he, hn, hs hloop, hentry, hoff, hfile, hrun⟩ h.confined h.holds
      exact ⟨hconfined, hholds⟩

/-- One entry adds what all its expansions do, or nothing if it is passed over. -/
theorem visit_lays (hl : listing options (S.source.descend rel) dest w₀ = .ok entries w₁)
    (hcome : Action.Comes (visit S.limits (render S.limits n) options dest) entries w₁ (S.entryOf rel name) w)
    (hrun : visit S.limits (render S.limits n) options dest (S.entryOf rel name) w = .ok () w') :
    Reached K (found ++ contributed S.limits S.files S.source S.loc (S.finds m) rel target options.scope name)
      w' := by
  have hn : IsName name := S.wellFormed.isName_of_mem hsome name (by simp)
  rw [contributed, passedOver_eq he hn]
  rw [visit] at hrun
  cases hskip : S.limits.skip.any (·.alike (S.entryOf rel name).path) with
  | true =>
      rw [hskip] at hrun
      cases hrun
      rw [Bool.true_or, if_pos rfl, List.append_nil]
      exact h.congr rfl
  | false =>
      cases hhides : S.limits.ignore.hides ((S.entryOf rel name).path.relativeTo options.sourceRoot) with
      | true =>
          simp only [hskip, hhides] at hrun
          cases hrun
          rw [Bool.false_or, if_pos rfl, List.append_nil]
          exact h.congr rfl
      | false =>
          simp only [hskip, hhides] at hrun
          obtain ⟨expansions, w₂, hread, hrest⟩ := bind_eq_ok hrun
          obtain ⟨hexp, rfl⟩ := ofExcept_ok hread
          obtain ⟨u, w₃, htell, hforM⟩ := bind_eq_ok hrest
          have hfiles := tellPruned_keeps (J := (· = w₂.files)) name expansions w₂ rfl
          rw [show (tellPruned name expansions).after w₂ = w₃ from after_ok htell] at hfiles
          have hall : expansionsOf name options.scope = expansions := by
            rw [expansionsOf, show expand name options.scope = .ok expansions from hexp]
            rfl
          rw [hall]
          refine forM_collects (I := Reached K) (g := fun e => _) (h.congr hfiles) ?_ hforM
          intro e w₄ w₅ A henter hrun hA
          refine enter_lays hA he hsome ih hm hfit ?_ hrun
          exact ⟨entries, expansions, w₁, w₂, hl, hcome, hskip, hhides, hexp, (after_ok htell).symm ▸ henter⟩

end

theorem render_lays (K : S.Keeping) (n : Nat) : Lays K n := by
  induction n with
  | zero =>
      intro options rel target dest found w w' m _ _ _ _ hrun
      cases hrun
  | succ n ih =>
      intro options rel target dest found w w' m he hfit h hm hrun
      obtain ⟨m, rfl⟩ : ∃ k, m = k + 1 := ⟨m - 1, by omega⟩
      rw [render_succ] at hrun
      obtain ⟨entries, w₁, hl, hvisits⟩ := bind_eq_ok hrun
      obtain ⟨hfiles, hentries⟩ := listing_ok h he hl
      have hall := forM_collects (I := Reached K) (g := fun entry => contributed S.limits S.files S.source S.loc
        (S.finds m) rel target options.scope entry.name) (h.congr hfiles) (fun entry w₂ w₃ A hcome hvisit hA => ?_)
        hvisits
      · rw [hentries, List.flatMap_map] at hall
        exact hall
      · have hmem : entry ∈ entries := by
          obtain ⟨before, rest, he, -⟩ := hcome
          simp [he]
        rw [hentries] at hmem
        obtain ⟨name, hname, rfl⟩ := List.mem_map.1 hmem
        have hsome := mem_children.1 hname
        rw [List.append_assoc] at hsome
        exact visit_lays hA he hsome ih (by omega) hfit hl hcome hvisit

/-- Every emission adds its file to the layout. -/
def laying (S : Setup) (hone : S.links.count .stylesheet ≤ 1) : S.Keeping where
  fits := IsPlain
  holds := Emitted S.links S.top
  isName := IsPlain.isName
  emits := by
    intro options rel target dest name e found w w' h hc hemitted
    obtain ⟨hspells, hopen⟩ := h.enters.spells.child h.fits.isName
    rw [List.append_assoc] at hspells
    have hfile : (S.entryOf rel name).path.fileChars? = some name.toList := by
      rw [entryOf, descend_append, fileChars_child h.isName h.enters.leadsTo.2.1]
    have hname : (S.fileOf rel target name e).name = name := by simp [Contribution.name, fileOf]
    have hkeep : Confined S.base S.top S.files ((emit { options with scope := e.scope }
        (S.entryOf rel name).path (dest.child e.name)).after w).files :=
      emit_keeps writes_confined _ _ ⟨hopen, target, e.name, h.enters.names, h.fits, by rwa [List.append_assoc]⟩ w hc
    rw [after_ok h.run] at hkeep
    have hcss : options.links.count .stylesheet ≤ 1 := h.enters.links ▸ hone
    have hends := emit_ends (c := S.fileOf rel target name e) hc S.noUp
      (by rw [hname, hfile]) rfl h.enters.names h.fits hspells hopen h.run hcss (by rw [hname]; exact h.entry)
    exact ⟨hkeep, hemitted.step (h.enters.links ▸ hends)⟩

end Setup

end SiteTree.Walk
