import SiteTree.Proofs.Alike
import SiteTree.Proofs.FileSystem.Filled
import SiteTree.Proofs.FileSystem.Way

/-!
Two trees side by side, each with a directory to render into. The directories have the same contents, and the
same changes made to both of them are refused for the same causes and keep the contents the same.
-/

namespace SiteTree.FileSystem

open SiteTree.Path

/-- A directory to render into: the stretches that lead to it, its location, and the tree before. -/
structure Ground where
  base : List String
  root : Location
  start : FileSystem

/-- Nothing has changed but in the directory. -/
abbrev Ground.Holds (G : Ground) (fs : FileSystem) : Prop := Confined G.base G.root G.start fs

variable {G G' : Ground} {I : Location → Prop} {fs fs' : FileSystem} {follow : Bool} {m n : Nat}
  {cwd cwd' root root' x : Location} {names : List String} {s : String} {node : FileNode} {p p' source : Path}
  {bytes : ByteArray}

/-- The same place below two directories. -/
inductive SamePlace (root root' : Location) : Place → Place → Prop
  | found (x : Location) (node : FileNode) : SamePlace root root' (.found (root ++ x) node) (.found (root' ++ x) node)
  | vacant (x : Location) (name : String) (slashed : Bool) :
      SamePlace root root' (.vacant (root ++ x) name slashed) (.vacant (root' ++ x) name slashed)

/-- In directories without links that have the same contents, names lead to the same. -/
theorem walk_likewise (hl : fs.LinkFree root) (hm : ∀ x, fs'.at? (root' ++ x) = fs.at? (root ++ x))
    (hn : ∀ s ∈ names, IsStep s) (x : Location) : Likewise Eq (SamePlace root root')
      (fs.walk follow (n + 1) (root ++ x) names) (fs'.walk follow (m + 1) (root' ++ x) names) := by
  induction names generalizing x with
  | nil =>
      rw [walk_succ, walk_succ, walkWith, walkWith, hm]
      cases fs.at? (root ++ x) with
      | none => exact .error rfl
      | some node => exact .ok (.found x node)
  | cons s rest ih =>
      have hs := hn s (by simp)
      have hrest := ih fun t ht => hn t (List.mem_cons_of_mem s ht)
      have hin := hm (x ++ [s])
      rw [← List.append_assoc, ← List.append_assoc] at hin
      rw [walk_succ, walk_succ, walkWith, walkWith, hm, hin]
      rcases stepCase fs (root ++ x) s with hd | ⟨-, hf⟩ | ⟨-, rfl⟩ | ⟨hd, -, hnone⟩ | ⟨target, -, -, hlink⟩ |
        ⟨node, hd, -, hnode, hlink⟩
      · cases hat : fs.at? (root ++ x) with
        | none => exact .error rfl
        | some node =>
            cases node with
            | directory => exact absurd hat hd
            | file | link => exact .error rfl
      · exact absurd hf fun hf => hf.elim hs.1 hs.2.1
      · exact absurd rfl hs.2.2
      · by_cases hend : rest = []
        · simpa [hd, hs.1, hs.2.1, hs.2.2, hnone, hend, -List.append_assoc] using Likewise.ok (SamePlace.vacant x s false)
        by_cases hslash : rest = [""]
        · simpa [hd, hs.1, hs.2.1, hs.2.2, hnone, hslash, -List.append_assoc] using Likewise.ok (SamePlace.vacant x s true)
        · simpa [hd, hs.1, hs.2.1, hs.2.2, hnone, hend, hslash, -List.append_assoc] using Likewise.error rfl
      · rw [List.append_assoc] at hlink
        exact absurd hlink (hl _ target (List.prefix_append _ _))
      · have hinner := hrest (x ++ [s])
        rw [walk_succ, walk_succ, ← List.append_assoc, ← List.append_assoc] at hinner
        cases node with
        | link target => exact absurd rfl (hlink target)
        | file bytes => simpa [hd, hs.1, hs.2.1, hs.2.2, hnode, -List.append_assoc] using hinner
        | directory => simpa [hd, hs.1, hs.2.1, hs.2.2, hnode, -List.append_assoc] using hinner

/-- The directories have the same contents, and the trees are the same off some places. -/
structure Twin (G G' : Ground) (I : Location → Prop) (fs fs' : FileSystem) : Prop where
  left : G.Holds fs
  right : G'.Holds fs'
  mirrored : ∀ x, fs'.at? (G'.root ++ x) = fs.at? (G.root ++ x)
  same : SameOff I fs fs'
  apart : G'.root = G.root ∨ ∀ x, I (G.root ++ x) ∧ I (G'.root ++ x)

namespace Twin

/-- The same change in both directories. -/
theorem change {fs₁ fs₁' : FileSystem} (h : Twin G G' I fs fs') (hl : G.Holds fs₁) (hr : G'.Holds fs₁')
    (hat : ∀ x, fs₁.at? x = fs.at? x ∨ G.root <+: x) (hat' : ∀ x, fs₁'.at? x = fs'.at? x ∨ G'.root <+: x)
    (hm : ∀ x, fs₁'.at? (G'.root ++ x) = fs₁.at? (G.root ++ x)) : Twin G G' I fs₁ fs₁' := by
  refine ⟨hl, hr, hm, fun x hx => ?_, h.apart⟩
  rcases h.apart with he | hI
  · by_cases hin : G.root <+: x
    · obtain ⟨y, rfl⟩ := hin
      rw [← he, hm, he]
    · rw [(hat x).resolve_right hin, (hat' x).resolve_right (he ▸ hin), h.same x hx]
  · have hin : ¬ G.root <+: x := by
      rintro ⟨y, rfl⟩
      exact hx (hI y).1
    have hin' : ¬ G'.root <+: x := by
      rintro ⟨y, rfl⟩
      exact hx (hI y).2
    rw [(hat x).resolve_right hin, (hat' x).resolve_right hin', h.same x hx]

theorem put (h : Twin G G' I fs fs') {node : FileNode} (hl : G.Holds (fs.put (G.root ++ x) node))
    (hr : G'.Holds (fs'.put (G'.root ++ x) node)) (hne : fs.at? (G.root ++ x) ≠ some .directory) :
    Twin G G' I (fs.put (G.root ++ x) node) (fs'.put (G'.root ++ x) node) := by
  have hne' : fs'.at? (G'.root ++ x) ≠ some .directory := by rwa [h.mirrored]
  have hput : ∀ y, (fs.put (G.root ++ x) node).at? y = if y = G.root ++ x then some node else fs.at? y := by
    intro y
    split
    · next he => subst he; exact at?_put_self fs node (by intro hnil; rw [hnil] at hne; exact hne rfl)
    · next he => exact h.left.wellFormed.at?_put hne he
  have hput' : ∀ y, (fs'.put (G'.root ++ x) node).at? y = if y = G'.root ++ x then some node else fs'.at? y := by
    intro y
    split
    · next he => subst he; exact at?_put_self fs' node (by intro hnil; rw [hnil] at hne'; exact hne' rfl)
    · next he => exact h.right.wellFormed.at?_put hne' he
  refine h.change hl hr (fun y => ?_) (fun y => ?_) fun y => ?_
  · rw [hput]
    split
    · next he => exact .inr (he ▸ List.prefix_append _ _)
    · exact .inl rfl
  · rw [hput']
    split
    · next he => exact .inr (he ▸ List.prefix_append _ _)
    · exact .inl rfl
  · rw [hput, hput', h.mirrored]
    simp only [List.append_cancel_left_eq]

/-- A file is moved within both directories. -/
theorem move {y : Location} (h : Twin G G' I fs fs') (hl : G.Holds (fs.move (G.root ++ x) (G.root ++ y)))
    (hr : G'.Holds (fs'.move (G'.root ++ x) (G'.root ++ y))) (hx : fs.at? (G.root ++ x) = some (.file bytes))
    (hne : y ≠ x) (hy : fs.at? (G.root ++ y) ≠ some .directory) :
    Twin G G' I (fs.move (G.root ++ x) (G.root ++ y)) (fs'.move (G'.root ++ x) (G'.root ++ y)) := by
  have hnil : ∀ {root : Location} {fs : FileSystem}, fs.at? (root ++ y) ≠ some .directory → root ++ y ≠ [] := by
    intro root fs hd he
    rw [he] at hd
    exact hd rfl
  have hx' : fs'.at? (G'.root ++ x) = some (.file bytes) := by rw [h.mirrored, hx]
  have hy' : fs'.at? (G'.root ++ y) ≠ some .directory := by rwa [h.mirrored]
  have hmoved := h.left.wellFormed.at?_move_file hx (hnil hy) (by simpa using hne) hy
  have hmoved' := h.right.wellFormed.at?_move_file hx' (hnil hy') (by simpa using hne) hy'
  refine h.change hl hr (fun z => ?_) (fun z => ?_) fun z => ?_
  · rw [hmoved]
    split
    · next he => exact .inr (he ▸ List.prefix_append _ _)
    · split
      · next he => exact .inr (he ▸ List.prefix_append _ _)
      · exact .inl rfl
  · rw [hmoved']
    split
    · next he => exact .inr (he ▸ List.prefix_append _ _)
    · split
      · next he => exact .inr (he ▸ List.prefix_append _ _)
      · exact .inl rfl
  · rw [hmoved, hmoved', h.mirrored]
    simp only [List.append_cancel_left_eq]

section

variable (h : Twin G G' I fs fs') (hn : ∀ s ∈ names, IsName s) (hp : p.Spells (G.base ++ names))
  (hp' : p'.Spells (G'.base ++ names))

include h hn hp hp'

theorem resolveSteps (follow : Bool) : Likewise Eq (SamePlace G.root G'.root)
    (fs.resolveSteps follow [] (G.base ++ names)) (fs'.resolveSteps follow [] (G'.base ++ names)) := by
  by_cases hnil : names = []
  · subst hnil
    have hroot : ∀ {G : Ground} {fs : FileSystem}, G.Holds fs →
        fs.resolveSteps follow [] (G.base ++ []) = .ok (.found (G.root ++ []) .directory) := by
      intro G fs hG
      rw [List.append_nil, List.append_nil]
      cases follow with
      | false => exact hG.leads.walk_eq
      | true => exact hG.reaches.walk_eq
    rw [hroot h.left, hroot h.right]
    exact .ok (.found [] _)
  · obtain ⟨m, hm⟩ := h.left.reaches.walk_below follow (Confined.not_empty hp) hnil
    obtain ⟨m', hm'⟩ := h.right.reaches.walk_below follow (Confined.not_empty hp') hnil
    rw [hm, hm']
    have hwalk : Likewise Eq (SamePlace G.root G'.root) (fs.walk follow (m + 1) (G.root ++ []) names)
      (fs'.walk follow (m' + 1) (G'.root ++ []) names) :=
      walk_likewise h.left.linkFree h.mirrored (fun s hs => (hn s hs).isStep) []
    rwa [List.append_nil, List.append_nil] at hwalk

theorem locate : Likewise Eq (SamePlace G.root G'.root) (fs.locate cwd p) (fs'.locate cwd' p') := by
  rw [hp.locate_eq, hp'.locate_eq]
  exact h.resolveSteps hn hp hp' false

theorem resolve (ho : p.IsOpen) (ho' : p'.IsOpen) :
    Likewise Eq (SamePlace G.root G'.root) (fs.resolve cwd follow p) (fs'.resolve cwd' follow p') := by
  rw [hp.resolve_open ho, hp'.resolve_open ho']
  exact h.resolveSteps hn hp hp' follow

theorem isDirectory_eq : fs'.isDirectory cwd' p' = fs.isDirectory cwd p := by
  rw [Bool.eq_iff_iff, isDirectory_iff hp, isDirectory_iff hp']
  have hplace := h.resolveSteps hn hp hp' true
  constructor
  · rintro ⟨loc, hr⟩
    rw [show fs'.resolveSteps true [] (G'.base ++ names) = .ok (.found loc .directory) from hr.walk_eq] at hplace
    generalize he : fs.resolveSteps true [] (G.base ++ names) = answer at hplace
    cases hplace with
    | ok hplace => cases hplace with
      | found x node => exact ⟨_, .of_walk he⟩
  · rintro ⟨loc, hr⟩
    rw [show fs.resolveSteps true [] (G.base ++ names) = .ok (.found loc .directory) from hr.walk_eq] at hplace
    generalize he : fs'.resolveSteps true [] (G'.base ++ names) = answer at hplace
    cases hplace with
    | ok hplace => cases hplace with
      | found x node => exact ⟨_, .of_walk he⟩

theorem makeDirectory : Likewise Eq (Twin G G' I) (fs.makeDirectory cwd p) (fs'.makeDirectory cwd' p') := by
  have hleft : ∀ {fs₁}, fs.makeDirectory cwd p = .ok fs₁ → G.Holds fs₁ := h.left.makeDirectory ⟨names, hn, hp⟩
  have hright : ∀ {fs₁}, fs'.makeDirectory cwd' p' = .ok fs₁ → G'.Holds fs₁ :=
    h.right.makeDirectory ⟨names, hn, hp'⟩
  rw [FileSystem.makeDirectory, FileSystem.makeDirectory] at *
  have hplace : Likewise Eq (SamePlace G.root G'.root) (fs.locate cwd p) (fs'.locate cwd' p') := h.locate hn hp hp'
  generalize hl : fs.locate cwd p = place at hplace hleft ⊢
  generalize fs'.locate cwd' p' = place' at hplace hright ⊢
  cases hplace with
  | error he => exact .error he
  | ok hplace =>
      cases hplace with
      | found x node => exact .error rfl
      | vacant x name slashed =>
          have hnone := (locate_leads hl).vacancy.2.2
          have hput := hleft rfl
          have hput' := hright rfl
          rw [List.append_assoc] at hnone hput hput'
          refine .ok ?_
          rw [List.append_assoc, List.append_assoc]
          exact h.put hput hput' (by simp [hnone])

theorem makeLevel : Likewise (fun e e' => e.1 = e'.1) (Twin G G' I) (makeLevel cwd p fs) (makeLevel cwd' p' fs') :=
  (h.makeDirectory hn hp hp').makeLevel (h.isDirectory_eq hn hp hp') h

omit h in
theorem makeLevels (h : Twin G G' I fs fs') (hm : names.length < m) (hm' : names.length < n) :
    Likewise (fun e e' => e.1 = e'.1) (Twin G G' I) (makeLevels cwd m p fs) (makeLevels cwd' n p' fs') := by
  induction m generalizing n names p p' with
  | zero => cases hm
  | succ m ih =>
      obtain ⟨n, rfl⟩ : ∃ k, n = k + 1 := ⟨n - 1, by omega⟩
      have he := hp.isEmpty
      have he' := hp'.isEmpty
      have hone : Likewise Eq (Twin G G' I) (fs.makeDirectory cwd p) (fs'.makeDirectory cwd' p') :=
        h.makeDirectory hn hp hp'
      by_cases hmissing : fs.makeDirectory cwd p = .error .missing
      · obtain ⟨l, s, rfl⟩ := (List.eq_nil_or_concat' names).resolve_left (by
          rintro rfl
          rw [List.append_nil] at hp
          cases (h.left.makeDirectory_self hp cwd).symm.trans hmissing)
        have hp₁ := hp
        have hp₁' := hp'
        rw [← List.append_assoc] at hp₁ hp₁'
        obtain ⟨q, hq, hspells⟩ := hp₁.parent
        obtain ⟨q', hq', hspells'⟩ := hp₁'.parent
        rw [List.length_append, List.length_singleton] at hm hm'
        have habove := ih (fun t ht => hn t (List.mem_append_left _ ht)) hspells hspells' (by omega)
          (show l.length < n by omega)
        rw [makeLevels_above he hmissing hq, makeLevels_above he' ((hone.eq_error_iff _).2 hmissing) hq']
        exact habove.bind fun fs₁ fs₁' hT => hT.makeLevel hn hp hp'
      · rw [makeLevels_last he hmissing, makeLevels_last he' (mt (hone.eq_error_iff _).1 hmissing)]
        exact h.makeLevel hn hp hp'

theorem write (ho : p.IsOpen) (ho' : p'.IsOpen) (bytes : ByteArray) :
    Likewise Eq (Twin G G' I) (fs.write cwd p bytes) (fs'.write cwd' p' bytes) := by
  have hleft : ∀ {fs₁}, fs.write cwd p bytes = .ok fs₁ → G.Holds fs₁ := h.left.write ⟨names, hn, hp⟩ ho
  have hright : ∀ {fs₁}, fs'.write cwd' p' bytes = .ok fs₁ → G'.Holds fs₁ := h.right.write ⟨names, hn, hp'⟩ ho'
  rw [write_open ho] at hleft ⊢
  rw [write_open ho'] at hright ⊢
  have hplace : Likewise Eq (SamePlace G.root G'.root) (fs.resolve cwd true p) (fs'.resolve cwd' true p') :=
    h.resolve hn hp hp' ho ho'
  have hleads : ∀ {place}, fs.resolve cwd true p = .ok place → fs.Leads true (maxLinks + 1) [] (G.base ++ names) place :=
    fun hr => .of_walk ((hp.resolve_open ho fs cwd true).symm.trans hr)
  generalize fs.resolve cwd true p = place at hplace hleft hleads ⊢
  generalize fs'.resolve cwd' true p' = place' at hplace hright ⊢
  cases hplace with
  | error he => exact .error he
  | ok hplace =>
      cases hplace with
      | found x node =>
          cases node with
          | file old => exact .ok (h.put (hleft rfl) (hright rfl) (by simp [(hleads rfl).at?_found]))
          | link | directory => exact .error rfl
      | vacant x name slashed =>
          have hnone := (hleads rfl).vacancy.2.2
          have hput := hleft rfl
          have hput' := hright rfl
          rw [List.append_assoc] at hnone hput hput'
          refine .ok ?_
          rw [List.append_assoc, List.append_assoc]
          exact h.put hput hput' (by simp [hnone])

/-- A file that is the same in both trees, wherever the path leads, is copied likewise. -/
theorem copy (ho : p.IsOpen) (ho' : p'.IsOpen) (hs : fs'.found cwd' source = fs.found cwd source)
    (hloc : ∀ loc node, fs.found cwd source = .ok (loc, node) → ¬ I loc) :
    Likewise Eq (Twin G G' I) (fs.copy cwd source p) (fs'.copy cwd' source p') := by
  rw [FileSystem.copy, FileSystem.copy, hs]
  cases hf : fs.found cwd source with
  | error cause => exact .error rfl
  | ok there =>
      obtain ⟨loc, node⟩ := there
      cases node with
      | link | directory => exact .error rfl
      | file old =>
          show Likewise _ _ (fs.write cwd p .empty >>= _) (fs'.write cwd' p' .empty >>= _)
          refine Likewise.bind (h.write hn hp hp' ho ho' .empty) fun cleared cleared' hT => ?_
          rw [hT.same loc (hloc loc _ hf)]
          cases cleared.at? loc with
          | none => exact .ok hT
          | some node =>
              cases node with
              | file bytes => exact hT.write hn hp hp' ho ho' bytes
              | link | directory => exact .ok hT

theorem pathExists_eq (ho : p.IsOpen) (ho' : p'.IsOpen) (hnil : names ≠ []) :
    fs'.pathExists cwd' p' = fs.pathExists cwd p := by
  rw [Bool.eq_iff_iff]
  constructor
  · intro he
    have hsome := h.right.isSome_of_pathExists hn hp' ho' he
    rw [h.mirrored] at hsome
    exact h.left.pathExists_of_isSome hp ho hnil hsome
  · intro he
    have hsome := h.left.isSome_of_pathExists hn hp ho he
    rw [← h.mirrored] at hsome
    exact h.right.pathExists_of_isSome hp' ho' hnil hsome

end

end Twin

end SiteTree.FileSystem
