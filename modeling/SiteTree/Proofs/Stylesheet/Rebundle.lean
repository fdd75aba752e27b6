import SiteTree.Proofs.Asset.Resolution
import SiteTree.Proofs.Stylesheet.Reach
import SiteTree.Proofs.Stylesheet.Seam

/-!
Bundling a bundle. It comes out as it is, wherever it is put, just if no local rule is left in it; and which are left
is told by the seams of the first bundling.
-/

namespace SiteTree.Stylesheet

open FileSystem

variable {fs : FileSystem} {cwd : Location} {path base : Path} {v v' : Visit} {log : List Call} {marks : List Mark}
  {ps : List Piece} {s : List Char} {start : Bool} {text : String} {rule : Rule} {c : Char} {w w' : World}

theorem localReferences_eq_nil : localReferences ps = [] ↔ ∀ r, .rule r ∈ ps → isRemote r.reference = true := by
  rw [List.eq_nil_iff_forall_not_mem]
  simp only [mem_localReferences, not_exists, not_and]
  constructor
  · intro h r hr
    by_contra hlocal
    exact h _ r hr (by simpa using hlocal) rfl
  · rintro h _ r hr hlocal rfl
    cases (h r hr).symm.trans hlocal

theorem Settled.no_local (h : Settled true s) : localReferences (pieces s) = [] := by
  obtain ⟨ps, hcut, hall⟩ := h
  rw [localReferences_eq_nil, (cuts_pieces s).unique hcut]
  exact hall

theorem runs_same (fs : FileSystem) (cwd : Location) (base : Path) (v : Visit) (h : localReferences ps = []) :
    ∃ marks, Runs fs cwd (.pieces base ps) v [] (.ok marks) v ∧ charsOf marks = written ps := by
  rw [localReferences_eq_nil] at h
  induction ps with
  | nil => exact ⟨[], .done, rfl⟩
  | cons p ps ih =>
      obtain ⟨marks, hruns, hmarks⟩ := ih fun r hr => h r (List.mem_cons_of_mem _ hr)
      cases p with
      | char c => exact ⟨_, hruns.char, by rw [charsOf_cons, hmarks]; rfl⟩
      | rule r => exact ⟨_, hruns.kept (h r List.mem_cons_self), by rw [charsOf_cons, hmarks]; rfl⟩

theorem bundle_same (hread : w.files.readText w.cwd path = .ok text) (h : localReferences (pieces text.toList) = []) :
    ∃ w', bundle path w = .ok text w' := by
  obtain ⟨c, hc⟩ := (readable_iff.2 ⟨text, hread⟩).canonical
  obtain ⟨marks, hruns, hmarks⟩ := runs_same w.files w.cwd (baseOf path) ⟨[c], []⟩ h
  have hbundle := bundle_runs (.read hc (by simp) hread hruns)
  rw [answer, hmarks, written_pieces, String.ofList_toList] at hbundle
  exact ⟨_, hbundle⟩

/-- Where everything that can be read was met, an import gives nothing. -/
theorem Runs.nothing (h : Runs fs cwd (.file path) v log (.ok marks) v')
    (hmet : ∀ p c, Readable fs cwd p → fs.canonical cwd p = .ok c → c ∈ v.seen) : marks = [] := by
  cases h with
  | again => rfl
  | read hc hnew hread => exact absurd (hmet _ _ (readable_iff.2 ⟨_, hread⟩) hc) hnew

/-- So what is bundled there gets shorter by each local rule. -/
theorem Runs.shorter (h : Runs fs cwd (.pieces base ps) v log (.ok marks) v')
    (hmet : ∀ p c, Readable fs cwd p → fs.canonical cwd p = .ok c → c ∈ v.seen) (hcut : Cuts start s ps) :
    (charsOf marks).length + (localReferences ps).length ≤ (written ps).length := by
  induction ps generalizing v log marks start s with
  | nil =>
      cases h
      rfl
  | cons p ps ih =>
      generalize hok : (Except.ok marks : Except Failure (List Mark)) = result at h
      cases h with
      | char hrest =>
          obtain ⟨marks', rfl, rfl⟩ := map_eq_ok.1 hok.symm
          cases hcut with
          | char _ hcut =>
              have hlen := ih hrest hmet hcut
              rw [charsOf_cons, written_cons, List.length_append, List.length_append, Mark.chars, Piece.chars,
                show localReferences (.char _ :: ps) = localReferences ps from rfl]
              omega
      | kept hremote hrest =>
          obtain ⟨marks', rfl, rfl⟩ := map_eq_ok.1 hok.symm
          cases hcut with
          | rule _ hcut =>
              have hlen := ih hrest hmet hcut
              rw [charsOf_cons, written_cons, List.length_append, List.length_append, Mark.chars, Piece.chars,
                localReferences_kept hremote]
              omega
      | inlined hlocal hfile hrest =>
          obtain ⟨marks', rfl, rfl⟩ := map_eq_ok.1 hok.symm
          obtain rfl := hfile.nothing hmet
          cases hcut with
          | rule hrule hcut =>
              have hlen := ih hrest (fun p c hp hc => hfile.seen_suffix.subset (hmet p c hp hc)) hcut
              have hpos := List.length_pos_iff.2 (text_ne_nil hrule)
              rw [charsOf_append, charsOf_inlined, written_cons, List.length_append, List.length_append, Piece.chars,
                localReferences_inlined hlocal, List.length_cons, show closed (charsOf []) = [] from rfl, List.length_nil]
              omega
      | failed => cases hok

theorem entry_of_readText (h : fs.readText cwd path = .ok text) : ∃ loc bytes, (loc, .file bytes) ∈ fs.entries ∧
    fs.found cwd path = .ok (loc, .file bytes) ∧ String.fromUTF8? bytes = some text := by
  obtain ⟨loc, bytes, hfound, htext⟩ := readText_eq_ok.1 h
  have hat := at?_of_found hfound
  have hne : loc ≠ [] := by
    rintro rfl
    cases hat
  rw [at?_of_ne_nil _ hne] at hat
  obtain ⟨l₁, l₂, hl, -⟩ := List.lookup_eq_some_iff.1 hat
  exact ⟨loc, bytes, by simp [hl], hfound, htext⟩

/-- A file that has nothing beside it. -/
def alone (text : String) : World := ⟨⟨[(["index.css"], .file text.toUTF8)]⟩, [], []⟩

theorem alone_read (text : String) : (alone text).files.readText (alone text).cwd ⟨"index.css"⟩ = .ok text :=
  readText_eq_ok.2 ⟨["index.css"], text.toUTF8, rfl, Asset.fromUTF8?_toUTF8 text⟩

theorem alone_met (text : String) {p c : Path} (hp : Readable (alone text).files (alone text).cwd p)
    (hc : (alone text).files.canonical (alone text).cwd p = .ok c) : c = ⟨"/index.css"⟩ := by
  obtain ⟨content, hread⟩ := readable_iff.1 hp
  obtain ⟨loc, bytes, hmem, hfound, -⟩ := entry_of_readText hread
  obtain ⟨loc', node, hfound', rfl⟩ := canonical_eq_ok.1 hc
  rw [hfound] at hfound'
  cases hfound'
  cases List.mem_singleton.1 hmem
  rfl

/-- A text that is bundled to itself where it has nothing beside it has no local imports. -/
theorem no_local_of_alone (h : bundle ⟨"index.css"⟩ (alone text) = .ok text w') :
    localReferences (pieces text.toList) = [] := by
  obtain ⟨log, marks, visit, hruns, htext⟩ := bundle_eq_ok h
  cases hruns with
  | again _ hseen => cases hseen
  | @read _ _ c content _ _ _ hc _ hread hrest =>
      obtain rfl := Except.ok.inj ((alone_read text).symm.trans hread)
      have hc' := alone_met text (readable_iff.2 ⟨text, hread⟩) hc
      have hlen := hrest.shorter (fun p d hp hd => by rw [alone_met text hp hd, hc']; exact List.mem_cons_self)
        (cuts_pieces text.toList)
      have hsame := congrArg List.length htext
      rw [written_pieces] at hlen
      exact List.length_eq_zero_iff.1 (by omega)

/-- What is left of import rules in a bundle. Each rule that is read in it and is all in characters of one file stands
right behind the place of an import that had it behind it on its line, and where a rule was kept a remote one is read.
Where all files that were read are tidy no local rule is left. Just if none is left the bundle is bundled to itself,
wherever it is put. -/
theorem bundle_seams {entry : Path} (h : bundle entry w = .ok text w') : ∃ log marks visit,
    Runs w.files w.cwd (.file entry) ⟨[], []⟩ log (.ok marks) visit ∧ text.toList = charsOf marks ∧
    (∀ ps r qs before after, pieces text.toList = ps ++ .rule r :: qs → charsOf before = written ps →
      (marks = before ++ r.text.map .char ++ after → before.getLast? = some (.seam false)) ∧
        ∀ r', marks = before ++ .kept r' :: after → isRemote r.reference = true) ∧
    ((∀ call ∈ log, ∀ content, call.reading = some (.ok content) → tidy content = true) →
      localReferences (pieces text.toList) = []) ∧
    (localReferences (pieces text.toList) = [] ↔ ∀ (v : World) (path : Path),
      v.files.readText v.cwd path = .ok text → ∃ v', bundle path v = .ok text v') := by
  obtain ⟨log, marks, visit, hruns, htext⟩ := bundle_eq_ok h
  obtain ⟨qs, files, hwoven, hfiles⟩ := hruns.woven rfl
  refine ⟨log, marks, visit, hruns, htext, ?_, fun htidy => ?_, fun hnone v path hread => bundle_same hread hnone, ?_⟩
  · rw [htext]
    exact fun ps r ps' before after hps hbefore =>
      ⟨hwoven.left_behind hps hbefore, fun r' => hwoven.kept_remote hps hbefore⟩
  · have hall : ∀ ps ∈ qs :: files, tidyPieces true ps = true := by
      intro ps hps
      rcases hfiles ps hps with rfl | ⟨call, hcall, content, hreading, rfl⟩
      · rfl
      · exact htidy call hcall content hreading
    have hsettled : Settled true (charsOf marks ++ []) :=
      hwoven.settled (hall qs List.mem_cons_self) (fun ps hps => hall ps (List.mem_cons_of_mem _ hps)) (.inr (.inl rfl))
    rw [List.append_nil, ← htext] at hsettled
    exact hsettled.no_local
  · intro hsame
    obtain ⟨v', hrun⟩ := hsame _ _ (alone_read text)
    exact no_local_of_alone hrun

/-- A stylesheet that imports another one, which imports a third that does not end in a newline, and a remote one. -/
def nested : World :=
  ⟨⟨[(["index.css"], .file "@import \"parts/header.css\";\n@import url(https://fonts.example/a.css);\nbody \x7b\x7d\n".toUTF8),
    (["parts"], .directory), (["parts", "header.css"], .file "@import './colors.css';\nheader \x7b\x7d\n".toUTF8),
    (["parts", "colors.css"], .file ":root \x7b\x7d".toUTF8)]⟩, [], []⟩

theorem nested_settles : ∃ text w', bundle ⟨"index.css"⟩ nested = .ok text w' ∧
    text = ":root \x7b\x7d\nheader \x7b\x7d\n@import url(https://fonts.example/a.css);\nbody \x7b\x7d\n" ∧
    ∀ (v : World) (path : Path), v.files.readText v.cwd path = .ok text → ∃ v', bundle path v = .ok text v' := by
  obtain ⟨text, w', hrun, htext⟩ := Action.yields_iff.1 (show Action.yields (bundle ⟨"index.css"⟩) nested (fun text _ =>
    text = ":root \x7b\x7d\nheader \x7b\x7d\n@import url(https://fonts.example/a.css);\nbody \x7b\x7d\n") = true by
      decide +kernel)
  obtain ⟨log, marks, visit, hruns, -, -, hsettled, hsame⟩ := bundle_seams hrun
  have htidy : ∀ e ∈ nested.files.entries, ∀ bytes, e.2 = .file bytes → (String.fromUTF8? bytes).all tidy = true := by
    intro e he bytes hbytes
    simp only [nested, List.mem_cons, List.not_mem_nil, or_false] at he
    rcases he with rfl | rfl | rfl | rfl <;> cases hbytes <;> decide +kernel
  refine ⟨text, w', hrun, of_decide_eq_true htext, hsame.1 (hsettled fun call hcall content hreading => ?_)⟩
  obtain ⟨loc, bytes, hmem, -, hcontent⟩ := entry_of_readText (hruns.reading_eq hcall hreading)
  have hall := htidy _ hmem bytes rfl
  simpa only [hcontent, Option.all_some] using hall

/-- Two imports on one line. -/
def twoOnLine : World :=
  ⟨⟨[(["index.css"], .file "@import 'a.css'; @import 'b.css';\n".toUTF8), (["a.css"], .file "a \x7b\x7d\n".toUTF8),
    (["b.css"], .file "b \x7b\x7d\n".toUTF8)]⟩, [], []⟩

/-- The second is left, and put elsewhere the bundle cannot be bundled. -/
theorem twoOnLine_left : ∃ text w', bundle ⟨"index.css"⟩ twoOnLine = .ok text w' ∧ text = "a \x7b\x7d\n@import 'b.css';\n" ∧
    localReferences (pieces text.toList) = ["b.css".toList] ∧
    ¬ ∀ (v : World) (path : Path), v.files.readText v.cwd path = .ok text → ∃ v', bundle path v = .ok text v' := by
  obtain ⟨text, w', hrun, htext⟩ := Action.yields_iff.1 (show Action.yields (bundle ⟨"index.css"⟩) twoOnLine
    (fun text _ => text = "a \x7b\x7d\n@import 'b.css';\n") = true by decide +kernel)
  obtain rfl := of_decide_eq_true htext
  refine ⟨_, w', hrun, rfl, by decide +kernel, fun hsame => ?_⟩
  have hfails : Action.succeeds (bundle ⟨"index.css"⟩) (alone "a \x7b\x7d\n@import 'b.css';\n") = false := by decide +kernel
  cases hfails.symm.trans (Action.succeeds_iff.2 ⟨_, hsame _ _ (alone_read _)⟩)

end SiteTree.Stylesheet
