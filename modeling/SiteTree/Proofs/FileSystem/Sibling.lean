import SiteTree.Proofs.FileSystem.Downward

/-!
Paths that lead to one file. Where there are no links, what a reference leads to from the directory of the file does
not depend on how the path of the file is spelled.
-/

namespace SiteTree.FileSystem

open SiteTree.Path Text

variable {fs : FileSystem} {follow : Bool} {n : Nat} {cwd cur loc dir : Location} {l : List String} {s : String}
  {node : FileNode} {bytes : ByteArray} {p p' q c : Path}

theorem canonical_eq_ok : fs.canonical cwd p = .ok c ↔ ∃ loc node, fs.found cwd p = .ok (loc, node) ∧ c = pathOf loc := by
  rw [canonical]
  cases fs.found cwd p with
  | error cause => simp [bind, Except.bind]
  | ok x =>
      obtain ⟨loc, node⟩ := x
      simp [bind, Except.bind, eq_comm]

/-- Two paths with the same canonical spelling lead to the same thing. -/
theorem found_of_canonical (hw : fs.WellFormed) (hc : fs.canonical cwd p = .ok c) (hc' : fs.canonical cwd p' = .ok c) :
    fs.found cwd p' = fs.found cwd p := by
  obtain ⟨loc, node, hfound, rfl⟩ := canonical_eq_ok.1 hc
  obtain ⟨loc', node', hfound', heq⟩ := canonical_eq_ok.1 hc'
  have hat := at?_of_found hfound
  have hat' := at?_of_found hfound'
  have hspells := spells_pathOf (hw.isName_of_mem (by rw [hat]; rfl))
  have hspells' := spells_pathOf (hw.isName_of_mem (by rw [hat']; rfl))
  obtain rfl : loc = loc' := hspells.stretches.symm.trans (heq ▸ hspells'.stretches)
  obtain rfl : node = node' := Option.some.inj (hat.symm.trans hat')
  rw [hfound, hfound']

/-- Without links nothing is ever handed to what follows them. -/
theorem walkWith_linkFree (hfree : fs.LinkFree []) (jump jump' : Location → String → List String → Except Cause Place)
    (cur : Location) (l : List String) : fs.walkWith jump follow cur l = fs.walkWith jump' follow cur l := by
  induction l generalizing cur with
  | nil => rfl
  | cons s l ih =>
      simp only [walkWith, ih]
      split
      · split
        · rfl
        · split
          · rfl
          · split
            · rfl
            · next target hlink => exact absurd hlink (hfree _ target List.nil_prefix)
            · rfl
      · rfl
      · rfl

theorem walk_linkFree (hfree : fs.LinkFree []) (n : Nat) (cur : Location) (l : List String) :
    fs.walk follow (n + 1) cur l = fs.walk follow 1 cur l := walkWith_linkFree hfree _ _ cur l

/-- The way to a file ends with its name, and what comes before leads to its directory. -/
theorem Leads.file_split (h : fs.Leads true n cur l (.found loc (.file bytes))) (hw : fs.WellFormed)
    (hfree : fs.LinkFree []) (hcur : fs.at? cur = some .directory) :
    ∃ l' s dir, l = l' ++ [s] ∧ IsStep s ∧ loc = dir ++ [s] ∧ fs.Leads true n cur l' (.found dir .directory) := by
  generalize hp : Place.found loc (.file bytes) = place at h
  induction h with
  | stop h =>
      cases hp
      cases h.symm.trans hcur
  | skip h hs _ ih =>
      obtain ⟨l', t, dir, rfl, ht, hloc, hl⟩ := ih h hp
      exact ⟨_ :: l', t, dir, rfl, ht, hloc, .skip h hs hl⟩
  | up h _ ih =>
      obtain ⟨l', t, dir, rfl, ht, hloc, hl⟩ := ih (hw.directory_above h (List.dropLast_prefix _)) hp
      exact ⟨_ :: l', t, dir, rfl, ht, hloc, .up h hl⟩
  | vacant | slashed => cases hp
  | stay _ _ _ hf => cases hf
  | jump _ _ hn => exact absurd hn (hfree _ _ List.nil_prefix)
  | @enter n cur s node rest place h hs hn hlink hl ih =>
      by_cases hrest : rest = []
      · subst hrest
        subst hp
        cases hl
        exact ⟨[], s, cur, rfl, hs, rfl, .stop h⟩
      · have hdir := hl.begins hrest
        obtain ⟨l', t, dir, rfl, ht, hloc, hl'⟩ := ih hdir hp
        exact ⟨_ :: l', t, dir, rfl, ht, hloc, .enter h hs hn hlink hl'⟩

theorem steps_join (hq : q.isAbsolute = false) (hp : p.text ≠ "") :
    steps (p.join q).text.toList = stretches p.text.toList ++ steps q.text.toList := by
  have hlast : ((p.join q).text.toList = [] ∨ (p.join q).text.toList.getLast? = some '/') ↔
      (q.text.toList = [] ∨ q.text.toList.getLast? = some '/') := by
    have hne : p.text.toList ≠ [] := by simpa using hp
    rw [text_join hq hp]
    by_cases hnil : q.text.toList = []
    · rw [hnil]
      split <;> simp [*]
    · split <;> simp [List.getLast?_append, List.getLast?_cons, hnil, List.getLast?_eq_some_getLast hnil]
  rw [steps_eq, steps_eq, stretches_join hq hp]
  by_cases h : q.text.toList = [] ∨ q.text.toList.getLast? = some '/'
  · rw [if_pos (hlast.2 h), if_pos h, List.append_assoc]
  · rw [if_neg (mt hlast.1 h), if_neg h]

theorem startOf_join (hq : q.isAbsolute = false) (hp : p.text ≠ "") :
    startOf cwd (p.join q).text.toList = startOf cwd p.text.toList := by
  have hne : p.text.toList ≠ [] := by simpa using hp
  rw [startOf, startOf, text_join hq hp]
  split <;> rw [List.head?_append_of_ne_nil _ hne]

/-- Where a reference leads from a directory. -/
theorem LeadsTo.resolve_join (h : fs.LeadsTo cwd p dir) (hfree : fs.LinkFree []) (hq : q.isAbsolute = false) :
    fs.resolve cwd true (p.join q) = fs.walk true 1 dir (steps q.text.toList) := by
  obtain ⟨m, hm⟩ := h.2.walk_append true (steps_ne_nil q.text.toList)
  rw [filter_stretches] at hm
  have hne : (p.join q).text ≠ "" := by
    intro he
    have hpne : p.text.toList ≠ [] := by simpa using h.1
    have htext := text_join hq h.1
    rw [he] at htext
    split at htext <;> simp_all
  rw [resolve, isEmpty_eq_false hne, if_neg Bool.false_ne_true, resolveSteps, startOf_join hq h.1, steps_join hq h.1, hm,
    walk_linkFree hfree]

theorem parent?_name (hs : IsName p.text) : p.parent? = some ⟨""⟩ := by
  have hparts : p.parts = ⟨.bare, [p.text.toList]⟩ := by
    unfold parts
    split
    · next hr => exact absurd (hr ▸ List.mem_cons_self) hs.2.2.2
    · next hr => exact absurd (String.toList_inj.1 hr) hs.2.1
    · next hr => exact absurd (hr ▸ List.mem_cons_of_mem _ List.mem_cons_self) hs.2.2.2
    · rw [split_of_not_mem hs.2.2.2]
  have hsplit : splitBody? [p.text.toList] = some ([], p.text.toList) := by
    rw [← List.nil_append [p.text.toList], splitBody?_append_singleton, isFiller_name hs]
    rfl
  rw [parent?, hparts, hsplit]
  rfl

/-- The path of a file is a name behind the path of its directory, if it is not the name alone. -/
theorem parent_of_file (hw : fs.WellFormed) (hfree : fs.LinkFree []) (h : fs.found cwd p = .ok (loc, .file bytes)) :
    (p.parent? = some ⟨""⟩ ∧ loc.dropLast = cwd) ∨ ∃ q, p.parent? = some q ∧ fs.LeadsTo cwd q loc.dropLast := by
  have hr := found_eq_ok.1 h
  rw [resolve] at hr
  split at hr
  · cases hr
  next hne =>
  have hleads := Leads.of_walk hr
  obtain ⟨l, s, dir, hsteps, hs, rfl, hl⟩ := hleads.file_split hw hfree (hleads.begins (steps_ne_nil _))
  have hslash : '/' ∉ s.toList := not_slash_of_mem_steps (hsteps ▸ List.mem_append_right l (List.mem_singleton_self s))
  have hname : IsName s := ⟨hs.1, hs.2.1, hs.2.2, hslash⟩
  rw [List.dropLast_concat]
  by_cases hsep : '/' ∈ p.text.toList
  · obtain ⟨a, b, htext, hb⟩ := exists_splitLast hsep
    have hsteps' : steps p.text.toList = stretches a ++ [String.ofList b] := by
      rw [htext, steps, splitLast?_append a hb]
      rfl
    obtain ⟨rfl, hlast⟩ := List.append_inj' (hsteps.symm.trans hsteps') rfl
    have hbs : b = s.toList := by rw [(List.cons.inj hlast).1, String.toList_ofList]
    have hfront : (ofChars (a ++ ['/'])).text ≠ "" := by
      intro he
      simpa [ofChars] using congrArg String.toList he
    have hchild : (ofChars (a ++ ['/'])).child s = p := by
      have htext' : ((ofChars (a ++ ['/'])).child s).text.toList = p.text.toList := by
        rw [text_child hname hfront, toList_ofChars, if_pos List.getLast?_concat, htext, hbs]
        simp
      exact congrArg Path.mk (String.toList_inj.1 htext')
    right
    refine ⟨(ofChars (a ++ ['/'])).trimmed, hchild ▸ parent?_child hname hfront, LeadsTo.trimmed ⟨hfront, ?_⟩⟩
    have hstart : startOf cwd (ofChars (a ++ ['/'])).text.toList = startOf cwd p.text.toList := by
      rw [startOf, startOf, toList_ofChars, htext]
      cases a <;> rfl
    rw [hstart, toList_ofChars, stretches_append, stretches_nil, List.append_nil]
    exact hl
  · left
    have hsteps' : steps p.text.toList = [p.text] := by
      rw [steps, splitLast?_of_not_mem hsep, String.ofList_toList]
    obtain ⟨rfl, hlast⟩ := List.append_inj' (show l ++ [s] = [] ++ [p.text] from hsteps.symm.trans hsteps') rfl
    obtain rfl : s = p.text := (List.cons.inj hlast).1
    refine ⟨parent?_name hname, ?_⟩
    cases hl
    rw [startOf, if_neg fun he => hsep (List.mem_of_head? he)]

/-- What a reference leads to from the directory of a file, however the path of the file is spelled. -/
theorem resolve_beside (hw : fs.WellFormed) (hfree : fs.LinkFree []) (h : fs.found cwd p = .ok (loc, .file bytes))
    (hq : q.text ≠ "") : fs.resolve cwd true ((p.parent?.getD ⟨"."⟩).join q) =
      if q.isAbsolute then fs.resolve cwd true q else fs.walk true 1 loc.dropLast (steps q.text.toList) := by
  cases habs : q.isAbsolute with
  | true =>
      have hjoin : (p.parent?.getD ⟨"."⟩).join q = q := by rw [join, if_pos habs]
      rw [hjoin]
      rfl
  | false =>
      rcases parent_of_file hw hfree h with ⟨hparent, hdir⟩ | ⟨dir, hparent, hleads⟩
      · have hjoin : (p.parent?.getD ⟨"."⟩).join q = q := by
          rw [hparent, join, if_neg (by rw [habs]; exact Bool.false_ne_true)]
          rfl
        have hstart : startOf cwd q.text.toList = cwd := by
          rw [startOf, if_neg (isAbsolute_eq_false.1 habs)]
        rw [hjoin, resolve, isEmpty_eq_false hq, if_neg Bool.false_ne_true, resolveSteps, hstart, walk_linkFree hfree, hdir]
        rfl
      · rw [hparent]
        exact hleads.resolve_join hfree habs

end SiteTree.FileSystem
