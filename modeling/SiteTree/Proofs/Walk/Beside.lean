import SiteTree.Proofs.FileSystem.Entry
import SiteTree.Proofs.FileSystem.Twin
import SiteTree.Proofs.Walk.Clear
import SiteTree.Proofs.Walk.Setup

/-!
Two walks side by side. If the trees are the same off some places that neither walk looks at, and the directories
that they render into have the same contents, the walks end alike.
-/

namespace SiteTree

open Action FileSystem Path

/-- Two worlds whose files are twins. -/
structure Beside (G G' : Ground) (I : Location → Prop) (w w' : World) : Prop where
  files : Twin G G' I w.files w'.files
  cwd : w'.cwd = w.cwd

variable {P : Prop} {G G' : Ground} {I : Location → Prop} {w w' : World} {p p' source : Path} {names : List String}
  {s : String}

theorem Beside.tells (h : Beside G G' I w w') (events events' : List Event) :
    Beside G G' I { w with events := events } { w' with events := events' } := ⟨h.files, h.cwd⟩

section

variable (h : Beside G G' I w w') (hn : ∀ s ∈ names, IsName s) (hp : p.Spells (G.base ++ names))
  (hp' : p'.Spells (G'.base ++ names)) (hP : P → p = p')

include h hn hp hp' hP

theorem makeDirectories_alike :
    EndAlike P (Beside G G' I) (fun _ _ => True) (makeDirectories p w) (makeDirectories p' w') := by
  have hlength : ∀ {G : Ground} {p : Path}, p.Spells (G.base ++ names) → names.length < p.components.length + 2 := by
    intro G p hp
    rw [hp.components, List.length_cons, List.length_map, List.length_append]
    omega
  refine changePart_alike (h.files.makeLevels hn hp hp' (hlength hp) (hlength hp')) (fun hP' => by rw [hP hP'])
    fun _ _ hT => ⟨hT, h.cwd⟩

/-- The levels above a place are made on both sides. -/
theorem makeParent_alike (hnil : names ≠ []) :
    EndAlike P (Beside G G' I) (fun _ _ => True) (makeParent p w) (makeParent p' w') := by
  obtain ⟨l, s, rfl⟩ := (List.eq_nil_or_concat' names).resolve_left hnil
  rw [← List.append_assoc] at hp hp'
  obtain ⟨q, hq, hspells⟩ := hp.parent
  obtain ⟨q', hq', hspells'⟩ := hp'.parent
  rw [makeParent, makeParent, hq, hq']
  refine makeDirectories_alike h (fun t ht => hn t (List.mem_append_left _ ht)) hspells hspells' fun hP' => ?_
  rw [hP hP', hq'] at hq
  exact (Option.some.inj hq).symm

theorem copy_alike (hnil : names ≠ []) (ho : p.IsOpen) (ho' : p'.IsOpen) (hs : Walk.CopiesPast I source p w) :
    EndAlike P (Beside G G' I) (fun _ _ => True) (copy source p w) (copy source p' w') := by
  refine (makeParent_alike h hn hp hp' hP hnil).bind fun u u' w₁ w₁' hm _ _ h₁ => ?_
  rw [Walk.CopiesPast, after_ok hm] at hs
  show EndAlike P _ _ (change (fun fs cwd => fs.copy cwd source p) (.write p) { w₁ with events := _ })
    (change (fun fs cwd => fs.copy cwd source p') (.write p') { w₁' with events := _ })
  have hsame : w₁'.files.found w₁'.cwd source = w₁.files.found w₁.cwd source := by
    rw [h₁.cwd]
    exact found_congr h₁.files.same hs
  exact change_alike (h₁.files.copy hn hp hp' ho ho' hsame fun loc node hf => hs loc (mem_wayTo_of_found hf))
    (fun hP' => by rw [hP hP']) fun _ _ hT => ⟨hT, h₁.cwd⟩

end

namespace Walk

open EntryName

variable {limits limits' : Limits} {options options' : Options} {dir dest dest' : Path} {l : List String} {n : Nat}
  {name : String} {entry : Entry} {e : Expansion} {u : Unit}

/-- The first walk passes over all that the second one does, and nothing else that the second one can come to. -/
structure Limits.Fit (G' : Ground) (I : Location → Prop) (limits limits' : Limits) : Prop where
  more : ∀ {root p}, limits'.passes root p = true → limits.passes root p = true
  less : ∀ {w : World} {root p l}, G'.Holds w.files → p.Spells l → Avoids I w.files w.cwd p →
    limits'.passes root p = false → limits.passes root p = false

theorem Limits.Fit.refl (G : Ground) (I : Location → Prop) (limits : Limits) : Limits.Fit G I limits limits :=
  ⟨fun h => h, fun _ _ _ h => h⟩

/-- Two walks at the same directory, the contents of which have the same place in both grounds. -/
structure Abreast (P : Prop) (G G' : Ground) (options options' : Options) (dir dest dest' : Path)
    (names : List String) : Prop where
  root : options'.sourceRoot = options.sourceRoot
  scope : options'.scope = options.scope
  links : options.links = []
  links' : options'.links = []
  absolute : ∃ l, dir.Spells l
  isName : ∀ s ∈ names, IsName s
  spells : dest.Spells (G.base ++ names)
  spells' : dest'.Spells (G'.base ++ names)
  same : P → dest = dest'

theorem emit_alike (ha : Abreast P G G' options options' dir dest dest' names) (hs : IsName s)
    (hw : Beside G G' I w w') (hc : CopiesPast I source (dest.child s) w) :
    EndAlike P (Beside G G' I) (fun _ _ => True) (emit options source (dest.child s) w)
      (emit options' source (dest'.child s) w') := by
  obtain ⟨hspells, ho⟩ := ha.spells.child hs
  obtain ⟨hspells', ho'⟩ := ha.spells'.child hs
  have hnames : ∀ t ∈ names ++ [s], IsName t := by
    intro t ht
    rcases List.mem_append.1 ht with ht | ht
    · exact ha.isName t ht
    · exact List.mem_singleton.1 ht ▸ hs
  rw [List.append_assoc] at hspells hspells'
  have hthere : w'.files.pathExists w'.cwd (dest'.child s) = w.files.pathExists w.cwd (dest.child s) :=
    hw.files.pathExists_eq hnames hspells hspells' ho ho' (by simp)
  rw [emit_unlinked ha.links, emit_unlinked ha.links', hthere]
  split
  · exact .ok trivial (hw.tells _ _)
  · exact copy_alike hw hnames hspells hspells' (fun hP => by rw [ha.same hP]) (by simp) ho ho' hc

section

variable (hfit : Limits.Fit G' I limits limits') (ha : Abreast P G G' options options' dir dest dest' names)
  (hw : Beside G G' I w w') (hc : Lists I limits options.sourceRoot w dir)
  (hc' : Lists I limits' options'.sourceRoot w' dir)

include hfit ha hw hc hc'

/-- What is listed differs only in what is passed over. -/
theorem list_alike : Likewise Eq (SameBut (fun name => limits.passes options.sourceRoot (dir.child name) = true)
      fun name => limits'.passes options'.sourceRoot (dir.child name) = true)
    (w.files.list w.cwd dir) (w'.files.list w'.cwd dir) := by
  have hfound : w'.files.found w'.cwd dir = w.files.found w.cwd dir := by
    rw [hw.cwd]
    exact found_congr hw.files.same hc.1
  cases hf : w.files.found w.cwd dir with
  | error cause =>
      rw [FileSystem.list, FileSystem.list, hfound, hf]
      exact .error rfl
  | ok there =>
      obtain ⟨loc, node⟩ := there
      cases node with
      | file | link =>
          rw [FileSystem.list, FileSystem.list, hfound, hf]
          exact .error rfl
      | directory =>
          have hleads : w.files.LeadsTo w.cwd dir loc := leadsTo_iff.2 hf
          have hleads' : w'.files.LeadsTo w'.cwd dir loc := leadsTo_iff.2 (hfound.trans hf)
          obtain ⟨l, hl⟩ := ha.absolute
          have hsame : ∀ name, ¬ I (loc ++ [name]) →
              (name ∈ w'.files.children loc ↔ name ∈ w.files.children loc) := by
            intro name hI
            rw [mem_children, mem_children, hw.files.same _ hI]
          rw [hleads.list, hleads'.list]
          refine .ok (.of_sorted (children_sorted _ _) (children_sorted _ _) (fun name hp hmem => ?_) fun name hp hmem => ?_)
          · rw [Bool.not_eq_true] at hp
            have hname := hw.files.left.wellFormed.isName (mem_children.1 hmem)
            have hI := hc.reached hleads.list hmem hp _ (hleads.mem_wayTo_child hname)
            refine ⟨(hsame name hI).2 hmem, fun hp' => ?_⟩
            rw [ha.root] at hp'
            rw [hfit.more hp'] at hp
            cases hp
          · rw [Bool.not_eq_true] at hp
            have hname := hw.files.right.wellFormed.isName (mem_children.1 hmem)
            have havoids := hc'.reached hleads'.list hmem hp
            have hI := havoids _ (hleads'.mem_wayTo_child hname)
            rw [ha.root] at hp
            rw [hfit.less hw.files.right (hl.child hname).1 havoids hp]
            exact ⟨(hsame name hI).1 hmem, Bool.false_ne_true⟩

theorem entriesOf_alike : EndAlike P (Beside G G' I)
    (SameBut (fun entry => limits.passes options.sourceRoot entry.path = true)
      fun entry => limits'.passes options'.sourceRoot entry.path = true) (entriesOf dir w) (entriesOf dir w') := by
  refine (look_alike (list_alike hfit ha hw hc hc') (fun _ => rfl) hw).bind fun names names' w₁ w₁' hl hl' hsame _ => ?_
  obtain ⟨rfl, hlist⟩ := look_ok hl
  obtain ⟨rfl, hlist'⟩ := look_ok hl'
  refine hsame.mapM (fun name hmem hp => ?_) (fun name hmem hp => ?_) (fun name hmem hp hp' => ?_) hw
  · obtain ⟨d, hd⟩ := hc.passed hlist hmem hp
    exact ⟨⟨name, dir.child name, d⟩, hp, hd⟩
  · obtain ⟨d, hd⟩ := hc'.passed hlist' hmem hp
    exact ⟨⟨name, dir.child name, d⟩, hp, hd⟩
  · have hfound : w₁'.files.found w₁'.cwd (dir.child name) = w₁.files.found w₁.cwd (dir.child name) := by
      rw [hw.cwd]
      exact found_congr hw.files.same (hc.reached hlist hmem (Bool.eq_false_iff.2 hp))
    rw [entryOf_eq, entryOf_eq, hfound]
    cases w₁.files.found w₁.cwd (dir.child name) with
    | error cause => exact .inr ⟨_, rfl, rfl⟩
    | ok there => exact .inl ⟨⟨name, dir.child name, there.2.isDirectory⟩, hp, hp', rfl, rfl⟩

theorem listing_alike : EndAlike P (Beside G G' I)
    (SameBut (fun entry => limits.passes options.sourceRoot entry.path = true)
      fun entry => limits'.passes options'.sourceRoot entry.path = true) (listing options dir dest w)
      (listing options' dir dest' w') :=
  entriesOf_alike hfit ha (hw.tells _ _) hc hc'

end

/-- The paths of the entries of a directory are absolute if its own path is. -/
theorem Abreast.listed (ha : Abreast P G G' options options' dir dest dest' names) (hw : w.files.WellFormed)
    {entries : List Entry} (hl : listing options dir dest w = .ok entries w') (hmem : entry ∈ entries) :
    ∃ l, entry.path.Spells l := by
  obtain ⟨u, w₁, hp, hentries⟩ := bind_eq_ok hl
  cases hp
  obtain ⟨-, hall⟩ := Asset.entriesOf_ok hentries
  obtain ⟨hpath, loc, hname⟩ := hall entry hmem
  obtain ⟨l, hspells⟩ := ha.absolute
  exact ⟨l ++ [entry.name], hpath ▸ (hspells.child (Asset.isName_of_mem_children hw hname)).1⟩

/-- The contents of a directory go to the same place of each ground again. -/
theorem Abreast.inner (ha : Abreast P G G' options options' dir dest dest' names) (hentry : ∃ l, entry.path.Spells l)
    (hs : e.form ≠ .loop → IsName e.name) : Abreast P G G' { options with scope := e.scope }
      { options' with scope := e.scope } entry.path (innerDest dest e) (innerDest dest' e) (innerTarget names e) := by
  rw [innerDest, innerDest, innerTarget]
  split
  · exact ⟨ha.root, rfl, ha.links, ha.links', hentry, ha.isName, ha.spells, ha.spells', ha.same⟩
  · next hloop =>
    have hspells := (ha.spells.child (hs hloop)).1
    have hspells' := (ha.spells'.child (hs hloop)).1
    rw [List.append_assoc] at hspells hspells'
    refine ⟨ha.root, rfl, ha.links, ha.links', hentry, ?_, hspells, hspells', fun hP => by rw [ha.same hP]⟩
    simpa [or_imp, forall_and] using ⟨ha.isName, hs hloop⟩

/-- The induction is on the nesting that is left. Both walks take the entries that neither passes over, and every
expansion of them, in the same order. -/
theorem render_alike (hfit : Limits.Fit G' I limits limits') (n : Nat)
    (ha : Abreast P G G' options options' dir dest dest' names) (hc : Clear I limits n options dir dest w)
    (hc' : Clear I limits' n options' dir dest' w') (hnames : MeetsOnly IsName limits n options dir dest w)
    (hw : Beside G G' I w w') : EndAlike P (Beside G G' I) (fun _ _ => True) (render limits n options dir dest w)
      (render limits' n options' dir dest' w') := by
  induction n generalizing options options' dir dest dest' names w w' with
  | zero => exact .error fun _ => rfl
  | succ n ih =>
      rw [render_succ, render_succ]
      refine (listing_alike hfit ha hw hc.lists hc'.lists).bind fun entries entries' w₁ w₁' hl hl' hsame hw₁ => ?_
      refine hsame.forM (fun entry w hp => visit_passed hp w) (fun entry w hp => visit_passed hp w)
        (fun events events' h => h.tells events events') (fun entry w₂ w₂' hp hp' hcome hcome' hw₂ => ?_) hw₁
      have hpass := Bool.eq_false_iff.2 hp
      have hpass' := Bool.eq_false_iff.2 hp'
      rw [visit_taken hpass, visit_taken hpass', ha.scope]
      refine (EndAlike.ofExcept hw₂).bind fun expansions _ w₃ w₃' hexp hexp' he hw₃ => ?_
      subst he
      obtain ⟨hexpand, rfl⟩ := ofExcept_ok hexp
      obtain ⟨-, rfl⟩ := ofExcept_ok hexp'
      rw [bind_ok (tellPruned_ok _ _ _), bind_ok (tellPruned_ok _ _ _)]
      have htold : Beside G G' I ((tellPruned entry.name expansions).after w₃)
          ((tellPruned entry.name expansions).after w₃') := by
        obtain ⟨events, htold⟩ := tellPruned_tells entry.name expansions w₃
        obtain ⟨events', htold'⟩ := tellPruned_tells entry.name expansions w₃'
        rw [htold, htold']
        exact hw₃.tells events events'
      refine (SameBut.refl expansions).forM nofun nofun (fun events events' h => h.tells events events')
        (fun e w₄ w₄' _ _ henter henter' hw₄ => ?_) htold
      rw [Limits.passes, Bool.or_eq_false_iff] at hpass hpass'
      have hcomes : Comes limits n options dir dest w entry e w₄ :=
        ⟨entries, expansions, w₁, w₃, hl, hcome, hpass.1, hpass.2, hexpand, henter⟩
      have hcomes' : Comes limits' n options' dir dest' w' entry e w₄' :=
        ⟨entries', expansions, w₁', w₃', hl', hcome', hpass'.1, hpass'.2, ha.scope ▸ hexpand, henter'⟩
      have hname : e.form ≠ .loop → IsName e.name := hnames e (.own hcomes)
      have hentry : ∃ l, entry.path.Spells l := by
        obtain ⟨before, rest, he, -⟩ := hcome
        exact ha.listed hw.files.left.wellFormed hl (by simp [he])
      cases hd : entry.isDirectory with
      | true =>
          rw [Setup.enter_directory hd, Setup.enter_directory hd]
          exact ih (ha.inner hentry hname) (hc.below hcomes hd) (hc'.below hcomes' hd)
            (fun e' hm => hnames e' (.inner hcomes hd hm)) hw₄
      | false =>
          rw [Setup.enter_file hd, Setup.enter_file hd]
          split
          · exact .error fun _ => rfl
          · next hloop =>
            have hinner : Abreast P G G' { options with scope := e.scope } { options' with scope := e.scope } dir dest
                dest' names := ⟨ha.root, rfl, ha.links, ha.links', ha.absolute, ha.isName, ha.spells, ha.spells', ha.same⟩
            exact emit_alike hinner (hname hloop) hw₄ (hc.copied hcomes hd hloop)

end Walk

end SiteTree
