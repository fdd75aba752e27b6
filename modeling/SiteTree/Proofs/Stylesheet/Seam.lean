import SiteTree.Proofs.Stylesheet.Run

/-!
What import rules a bundle holds. A file is cut into rules before anything is put in their place, and what stands
behind an import on its line starts no line there, but may well start one in the bundle. Where no import has anything
behind it, and nothing else looks like the beginning of one, the rules of a bundle are those that were kept.
-/

namespace SiteTree.Stylesheet

open Text

/-- How a bundle is put together from the pieces of a text, of which the first character starts a line or not. In the
place of an import comes what is put together from the pieces of its file, or from none if that was read before. The
pieces of all files that are read are listed. -/
inductive Woven : Bool → List Piece → List (List Piece) → List Mark → Prop
  | done {start : Bool} : Woven start [] [] []
  | char {start : Bool} {c : Char} {ps : List Piece} {files : List (List Piece)} {marks : List Mark}
      (hnone : start = true → rule? (c :: written ps) = none) (hrest : Woven (c = '\n') ps files marks) :
      Woven start (.char c :: ps) files (.char c :: marks)
  | kept {r : Rule} {ps : List Piece} {files : List (List Piece)} {marks : List Mark}
      (hrule : rule? (r.text ++ written ps) = some (r, written ps)) (hremote : isRemote r.reference = true)
      (hrest : Woven (endsLine r.text) ps files marks) : Woven true (.rule r :: ps) files (.kept r :: marks)
  | inlined {r : Rule} {ps qs : List Piece} {files files' : List (List Piece)} {marks marks' : List Mark}
      (hrule : rule? (r.text ++ written ps) = some (r, written ps)) (hlocal : isRemote r.reference = false)
      (hfile : Woven true qs files marks) (hrest : Woven (endsLine r.text) ps files' marks') :
      Woven true (.rule r :: ps) (qs :: (files ++ files')) (inlined r marks ++ marks')

/-- Whether what comes behind these marks starts a line in its own file. -/
def startsOwn : Bool → List Mark → Bool
  | start, [] => start
  | _, .char c :: marks => startsOwn (c = '\n') marks
  | _, .kept rule :: marks => startsOwn (endsLine rule.text) marks
  | _, .newline :: marks => startsOwn true marks
  | _, .seam start :: marks => startsOwn start marks

/-- Pieces are those of a file that was read by one of the calls, or none. -/
def ReadIn (log : List Call) (ps : List Piece) : Prop :=
  ps = [] ∨ ∃ call ∈ log, ∃ content, call.reading = some (.ok content) ∧ ps = pieces content.toList

variable {fs : FileSystem} {cwd : Location} {job : Job} {path base : Path} {v v' : Visit} {log log' : List Call}
  {result : Except Failure (List Mark)} {marks before after : List Mark} {ps qs : List Piece} {files : List (List Piece)}
  {s t x y z : List Char} {c : Char} {r : Rule} {start : Bool}

theorem ReadIn.mono (h : ReadIn log ps) (hsub : log ⊆ log') : ReadIn log' ps :=
  h.imp_right fun ⟨call, hcall, hread⟩ => ⟨call, hsub hcall, hread⟩

theorem Runs.woven (h : Runs fs cwd job v log result v') (hok : result = .ok marks) : match job with
    | .file _ => ∃ ps files, Woven true ps files marks ∧ ∀ qs ∈ ps :: files, ReadIn log qs
    | .pieces _ ps => ∀ start s, Cuts start s ps → ∃ files, Woven start ps files marks ∧ ∀ qs ∈ files, ReadIn log qs := by
  induction h generalizing marks with
  | missing | unreadable | failed => cases hok
  | again =>
      cases hok
      exact ⟨[], [], .done, by simp [ReadIn]⟩
  | done =>
      cases hok
      intro start s _
      exact ⟨[], .done, by simp⟩
  | read _ _ _ _ ih =>
      obtain ⟨files, hwoven, hfiles⟩ := ih hok _ _ (cuts_pieces _)
      refine ⟨_, files, hwoven, fun qs hqs => ?_⟩
      rcases List.mem_cons.1 hqs with rfl | hqs
      · exact .inr ⟨_, List.mem_cons_self, _, rfl, rfl⟩
      · exact (hfiles qs hqs).mono (List.subset_cons_self _ _)
  | char _ ih =>
      obtain ⟨marks', rfl, rfl⟩ := map_eq_ok.1 hok
      intro start s hcut
      cases hcut with
      | char hnone hcut =>
          obtain ⟨files, hwoven, hfiles⟩ := ih rfl _ _ hcut
          rw [← hcut.written_eq] at hnone
          exact ⟨files, hwoven.char hnone, hfiles⟩
  | kept hremote _ ih =>
      obtain ⟨marks', rfl, rfl⟩ := map_eq_ok.1 hok
      intro start s hcut
      cases hcut with
      | rule hrule hcut =>
          obtain ⟨files, hwoven, hfiles⟩ := ih rfl _ _ hcut
          rw [← hcut.written_eq] at hrule
          exact ⟨files, hwoven.kept hrule hremote, hfiles⟩
  | inlined hlocal _ _ ihfile ihrest =>
      obtain ⟨marks', rfl, rfl⟩ := map_eq_ok.1 hok
      intro start s hcut
      cases hcut with
      | rule hrule hcut =>
          obtain ⟨qs, files, hfile, hfiles⟩ := ihfile rfl
          obtain ⟨files', hrest, hfiles'⟩ := ihrest rfl _ _ hcut
          rw [← hcut.written_eq] at hrule
          refine ⟨_, .inlined hrule hlocal hfile hrest, fun ps' hps' => ?_⟩
          rcases List.mem_append.1 (List.cons_append ▸ hps') with hps' | hps'
          · exact (hfiles ps' hps').mono (List.subset_append_left _ _)
          · exact (hfiles' ps' hps').mono (List.subset_append_right _ _)

theorem startsOwn_append (start : Bool) (before after : List Mark) :
    startsOwn start (before ++ after) = startsOwn (startsOwn start before) after := by
  induction before generalizing start with
  | nil => rfl
  | cons m before ih => cases m <;> exact ih _

theorem kept_not_mem_closing (r : Rule) (s : List Char) : .kept r ∉ closing s := by
  rw [closing]
  split <;> simp

/-- Characters that stand together are on one side of any other mark. -/
theorem chars_beside {m : Mark} {marks' : List Mark} (hm : ∀ c, m ≠ .char c)
    (h : marks ++ m :: marks' = before ++ x.map .char ++ after) :
    (∃ l, marks = before ++ x.map .char ++ l) ∨ ∃ l, before = marks ++ m :: l ∧ marks' = l ++ x.map .char ++ after := by
  have hmem : m ∉ x.map Mark.char := by
    rw [List.mem_map]
    rintro ⟨c, -, hc⟩
    exact hm c hc.symm
  rcases List.append_eq_append_iff.1 h with ⟨l, hl, htail⟩ | ⟨l, hl, -⟩
  · cases l with
    | nil => exact .inl ⟨[], by rw [hl, List.append_nil, List.append_nil]⟩
    | cons m' l =>
        -- the mark is in what comes before the characters, or among them, which it is not
        obtain ⟨rfl, htail⟩ := List.cons.inj htail
        rcases List.append_eq_append_iff.1 hl with ⟨k, -, hk⟩ | ⟨k, hk, hl⟩
        · exact absurd (hk ▸ List.mem_append_right k List.mem_cons_self) hmem
        · cases k with
          | nil => exact absurd ((List.nil_append _ ▸ hl) ▸ List.mem_cons_self) hmem
          | cons m' k =>
              obtain ⟨rfl, rfl⟩ := List.cons.inj hl
              exact .inr ⟨k, hk, (List.cons.inj htail).2⟩
  · exact .inl ⟨l, hl⟩

theorem chars_before_closing (hx : x ≠ []) (h : marks ++ closing s = before ++ x.map .char ++ after) :
    ∃ l, marks = before ++ x.map .char ++ l := by
  rw [closing] at h
  split at h
  · exact ⟨after, by rw [← h, List.append_nil]⟩
  · apply (chars_beside (by simp) h).resolve_right
    rintro ⟨l, -, hl⟩
    simp [hx] at hl

theorem Woven.chars_prefix (h : Woven start ps files marks) (hmarks : marks = x.map .char ++ after) :
    x <+: written ps := by
  induction h generalizing x with
  | char _ _ ih =>
      cases x with
      | nil => exact List.nil_prefix
      | cons d x =>
          obtain ⟨hd, htail⟩ := List.cons.inj hmarks
          cases hd
          exact List.cons_prefix_cons.2 ⟨rfl, ih htail⟩
  | done | kept | inlined =>
      cases x with
      | nil => exact List.nil_prefix
      | cons d x => cases hmarks

/-- Characters that stand together in a bundle, and come from the start of a line of a file, are not all of a rule:
there it was not read as one. -/
theorem Woven.not_rule (h : Woven start ps files marks) (hmarks : marks = before ++ x.map .char ++ after) (hx : x ≠ [])
    (hstart : startsOwn start before = true) : ∃ y, rule? (x ++ y) = none := by
  induction h generalizing before after with
  | done => simp [hx] at hmarks
  | char hnone hrest ih =>
      cases before with
      | nil =>
          obtain ⟨d, x, rfl⟩ := List.exists_cons_of_ne_nil hx
          obtain ⟨hd, htail⟩ := List.cons.inj hmarks
          cases hd
          obtain ⟨y, hy⟩ := hrest.chars_prefix htail
          exact ⟨y, by rw [List.cons_append, hy]; exact hnone hstart⟩
      | cons m before =>
          obtain ⟨rfl, htail⟩ := List.cons.inj hmarks
          exact ih htail hstart
  | @kept r ps files marks _ _ _ ih =>
      rcases chars_beside (by simp) (show [] ++ .kept r :: marks = _ from hmarks) with ⟨l, hl⟩ | ⟨l, rfl, htail⟩
      · simp [hx] at hl
      · exact ih htail hstart
  | @inlined r ps qs files files' marks marks' _ _ _ _ ihfile ihrest =>
      -- the characters are in the file or behind the import, for the seams are no characters
      have hseams : [] ++ .seam true :: (marks ++ closing (charsOf marks) ++ .seam (endsLine r.text) :: marks') =
          before ++ x.map .char ++ after := by
        rw [← hmarks, Stylesheet.inlined]
        simp
      rcases chars_beside (by simp) hseams with ⟨l, hl⟩ | ⟨before, rfl, htail⟩
      · simp [hx] at hl
      rcases chars_beside (by simp) htail with ⟨l, hl⟩ | ⟨before, rfl, hrest⟩
      · obtain ⟨l, hfile⟩ := chars_before_closing hx hl
        exact ihfile hfile hstart
      · apply ihrest hrest
        simpa [startsOwn, startsOwn_append] using hstart

theorem Woven.kept_read (h : Woven start ps files marks) (hr : .kept r ∈ marks) :
    isRemote r.reference = true ∧ ∃ z, rule? (r.text ++ z) = some (r, z) := by
  induction h with
  | done => cases hr
  | char _ _ ih => exact ih (by simpa using hr)
  | kept hrule hremote _ ih =>
      rcases List.mem_cons.1 hr with heq | hr
      · cases heq
        exact ⟨hremote, _, hrule⟩
      · exact ih hr
  | @inlined r' ps qs files files' marks marks' _ _ _ _ ihfile ihrest =>
      have hmem : .kept r ∈ marks ∨ .kept r ∈ marks' := by
        simpa [Stylesheet.inlined, kept_not_mem_closing] using hr
      exact hmem.elim ihfile ihrest

/-- Where a line of the bundle starts a line of the file starts, if not right behind an import with something behind
it on its line. -/
theorem startsOwn_of_startsAfter (hkept : ∀ r, .kept r ∈ marks → r.text ≠ [])
    (hlast : marks.getLast? ≠ some (.seam false))
    (hstart : startsAfter start (charsOf marks) = true) : startsOwn start marks = true := by
  rcases List.eq_nil_or_concat marks with rfl | ⟨marks, m, rfl⟩
  · exact hstart
  · rw [List.concat_eq_append] at *
    rw [charsOf_append, startsAfter_append] at hstart
    rw [startsOwn_append]
    cases m with
    | char c => rwa [charsOf_cons, Mark.chars, List.singleton_append, charsOf_nil, startsAfter_cons] at hstart
    | kept r =>
        have hr : r.text ≠ [] := hkept r (List.mem_append_right _ (List.mem_singleton_self _))
        rwa [charsOf_cons, charsOf_nil, List.append_nil, Mark.chars, startsAfter_of_ne_nil hr] at hstart
    | newline => rfl
    | seam b =>
        cases b with
        | true => rfl
        | false => simp at hlast

/-- A rule of the bundle that is all in characters of one file stands right behind an import, with which it was on one
line: there it was not read as a rule. -/
theorem Woven.left_behind (h : Woven true qs files marks) {ps' : List Piece}
    (hps : pieces (charsOf marks) = ps ++ .rule r :: ps') (hbefore : charsOf before = written ps)
    (hmarks : marks = before ++ r.text.map .char ++ after) : before.getLast? = some (.seam false) := by
  obtain ⟨hstart, hrule⟩ := (cuts_pieces (charsOf marks)).rule_start hps
  by_contra hlast
  have hkept : ∀ r, .kept r ∈ before → r.text ≠ [] := by
    intro r hr
    have hmem : .kept r ∈ marks := by
      rw [hmarks, List.append_assoc]
      exact List.mem_append_left _ hr
    obtain ⟨-, z, hread⟩ := h.kept_read hmem
    exact text_ne_nil hread
  obtain ⟨y, hnone⟩ := h.not_rule hmarks (text_ne_nil hrule) (startsOwn_of_startsAfter hkept hlast (hbefore ▸ hstart))
  have hsome := rule?_isSome hrule y
  rw [hnone] at hsome
  cases hsome

theorem Woven.kept_remote (h : Woven true qs files marks) {r' : Rule} {ps' : List Piece}
    (hps : pieces (charsOf marks) = ps ++ .rule r :: ps') (hbefore : charsOf before = written ps)
    (hmarks : marks = before ++ .kept r' :: after) : isRemote r.reference = true := by
  have hmem : .kept r' ∈ marks := by
    rw [hmarks]
    exact List.mem_append_right _ List.mem_cons_self
  obtain ⟨hremote, z, hread⟩ := h.kept_read hmem
  obtain ⟨-, hrule⟩ := (cuts_pieces (charsOf marks)).rule_start hps
  have htext : r.text ++ written ps' = r'.text ++ charsOf after := by
    have hwritten := written_pieces (charsOf marks)
    rw [hps, hmarks, charsOf_append, hbefore, charsOf_cons] at hwritten
    simpa [written, Piece.chars, Mark.chars] using hwritten
  rw [htext] at hrule
  rwa [rule?_same hread hremote hrule]

/-- Whether a line begins as an import rule does. -/
def announces (s : List Char) : Bool := (dropStart? ['@', 'i', 'm', 'p', 'o', 'r', 't'] (s.dropWhile isIndent)).isSome

/-- Whether each line that begins as an import rule does is one, and no local rule has anything behind it on its
line. -/
def tidyPieces : Bool → List Piece → Bool
  | _, [] => true
  | start, .char c :: ps => !(start && announces (c :: written ps)) && tidyPieces (c = '\n') ps
  | _, .rule rule :: ps =>
    (isRemote rule.reference || endsLine rule.text || ps.isEmpty) && tidyPieces (endsLine rule.text) ps

def tidy (content : String) : Bool := tidyPieces true (pieces content.toList)

/-- All rules that are read in a text, of which the first character starts a line or not, are remote. -/
def Settled (start : Bool) (s : List Char) : Prop :=
  ∃ ps, Cuts start s ps ∧ ∀ r, .rule r ∈ ps → isRemote r.reference = true

/-- A text may be put behind another one if it is settled at the start of a line, and one starts there: after what was
there before, or with the first character of the text. -/
def Joins (start : Bool) (s : List Char) : Prop :=
  start = true ∧ Settled true s ∨ s = [] ∨ ∃ t, s = '\n' :: t ∧ Settled true t

theorem Settled.nil : Settled start [] := ⟨[], .nil, by simp⟩

theorem Settled.char (hnone : start = true → rule? (c :: s) = none) (h : Settled (c = '\n') s) :
    Settled start (c :: s) := by
  obtain ⟨ps, hcut, hall⟩ := h
  exact ⟨_, .char hnone hcut, fun r hr => hall r (by simpa using hr)⟩

theorem Settled.rule (hrule : rule? (r.text ++ s) = some (r, s)) (hremote : isRemote r.reference = true)
    (h : Settled (endsLine r.text) s) : Settled true (r.text ++ s) := by
  obtain ⟨ps, hcut, hall⟩ := h
  refine ⟨_, .rule hrule hcut, fun r' hr' => ?_⟩
  rcases List.mem_cons.1 hr' with heq | hr'
  · cases heq
    exact hremote
  · exact hall r' hr'

theorem announces_of_rule (h : rule? s = some (r, z)) : announces s = true := by
  obtain ⟨-, x, g, -, -, hcore⟩ := rule?_eq_some.1 h
  obtain ⟨t, v, ht, -, -⟩ := core?_eq_some.1 hcore
  rw [announces, dropStart?_eq_some.2 ht]
  rfl

theorem announces_iff : announces s = true ↔
    ∃ i, (∀ c ∈ i, isIndent c = true) ∧ i ++ ['@', 'i', 'm', 'p', 'o', 'r', 't'] <+: s := by
  rw [announces, Option.isSome_iff_exists]
  simp only [dropStart?_eq_some]
  constructor
  · rintro ⟨t, ht⟩
    refine ⟨s.takeWhile isIndent, fun c hc => List.mem_takeWhile_imp hc, t, ?_⟩
    rw [List.append_assoc, ← ht, List.takeWhile_append_dropWhile]
  · rintro ⟨i, hi, t, rfl⟩
    refine ⟨t, ?_⟩
    rw [List.append_assoc]
    exact EntryName.dropWhile_run hi (EntryName.ends_cons (by decide) _)

theorem rule?_lineEnd (s : List Char) : rule? ('\n' :: s) = none := by
  rw [Option.eq_none_iff_forall_not_mem]
  intro ⟨r, z⟩ hr
  exact absurd (announces_of_rule hr) Bool.false_ne_true

theorem Joins.settled (h : Joins start s) : Settled start s := by
  rcases h with ⟨rfl, h⟩ | rfl | ⟨t, rfl, h⟩
  · exact h
  · exact .nil
  · exact .char (fun _ => rule?_lineEnd t) h

/-- What is read of a line in the bundle, from behind its start on, is there in the file. -/
theorem Woven.line_prefix (h : Woven start ps files marks) (hfalse : start = false)
    (hjoins : Joins (startsAfter start (charsOf marks)) t) (hx : x <+: charsOf marks ++ t) (hline : '\n' ∉ x) :
    x <+: written ps := by
  induction h generalizing x with
  | done =>
      rcases hjoins with ⟨hstart, -⟩ | rfl | ⟨t, rfl, -⟩
      · cases hfalse.symm.trans hstart
      · exact hx
      · -- the file is at its end, and so is the line
        cases x with
        | nil => exact List.nil_prefix
        | cons d x => exact absurd ((List.cons_prefix_cons.1 hx).1 ▸ List.mem_cons_self) hline
  | @char start c ps files marks _ _ ih =>
      cases x with
      | nil => exact List.nil_prefix
      | cons d x =>
          obtain ⟨rfl, htail⟩ := List.cons_prefix_cons.1 hx
          obtain ⟨hd, hline⟩ : '\n' ≠ d ∧ '\n' ∉ x := by simpa using hline
          rw [charsOf_cons, Mark.chars, List.singleton_append, startsAfter_cons] at hjoins
          exact List.cons_prefix_cons.2 ⟨rfl, ih (decide_eq_false (Ne.symm hd)) hjoins htail hline⟩
  | kept | inlined => cases hfalse

/-- A line that does not begin as an import rule does is not read as one in the bundle. -/
theorem Woven.not_announced (h : Woven (c = '\n') ps files marks)
    (hjoins : Joins (startsAfter (c = '\n') (charsOf marks)) t) (hnot : announces (c :: written ps) = false) :
    rule? (c :: (charsOf marks ++ t)) = none := by
  rw [Option.eq_none_iff_forall_not_mem]
  rintro ⟨r, z⟩ hr
  obtain ⟨i, hi, hprefix⟩ := announces_iff.1 (announces_of_rule hr)
  have hline : '\n' ∉ i ++ ['@', 'i', 'm', 'p', 'o', 'r', 't'] := by
    rw [List.mem_append, not_or]
    exact ⟨fun hmem => absurd (hi _ hmem) (by decide), by decide⟩
  obtain ⟨d, w, hw⟩ := List.exists_cons_of_ne_nil (show i ++ ['@', 'i', 'm', 'p', 'o', 'r', 't'] ≠ [] by simp)
  rw [hw] at hprefix hline
  obtain ⟨rfl, htail⟩ := List.cons_prefix_cons.1 hprefix
  obtain ⟨hd, hw'⟩ : '\n' ≠ d ∧ '\n' ∉ w := by simpa using hline
  have hfile : w <+: written ps := h.line_prefix (decide_eq_false (Ne.symm hd)) hjoins htail hw'
  have hannounced : announces (d :: written ps) = true :=
    announces_iff.2 ⟨i, hi, hw ▸ List.cons_prefix_cons.2 ⟨rfl, hfile⟩⟩
  cases hannounced.symm.trans hnot

/-- A kept rule is read with what comes behind it in the bundle as it was with what comes behind it in its file. -/
theorem Woven.settled_kept (h : Woven (endsLine r.text) ps files marks)
    (hrule : rule? (r.text ++ written ps) = some (r, written ps)) (hremote : isRemote r.reference = true)
    (hjoins : Joins (startsAfter (endsLine r.text) (charsOf marks)) t)
    (hsettled : Settled (endsLine r.text) (charsOf marks ++ t)) : Settled true (r.text ++ (charsOf marks ++ t)) := by
  cases hend : endsLine r.text with
  | true => exact .rule (rule?_line hrule hremote (of_decide_eq_true hend) _) hremote hsettled
  | false =>
      rw [hend] at h hjoins
      cases h with
      | done =>
          rcases hjoins with ⟨hstart, -⟩ | rfl | ⟨t, rfl, ht⟩
          · cases hstart
          · exact .rule hrule hremote .nil
          · -- the newline that was added is read as the end of the rule's line
            have hread := rule?_newline hrule hremote (of_decide_eq_false hend) t
            rw [← List.singleton_append, ← List.append_assoc] at hread
            rw [charsOf_nil, List.nil_append, ← List.singleton_append, ← List.append_assoc]
            refine Settled.rule (r := ⟨r.reference, r.text ++ ['\n']⟩) hread hremote ?_
            rwa [show endsLine (r.text ++ ['\n']) = true by simp [endsLine]]
      | char => exact .rule (rule?_head hrule hremote _) hremote hsettled

theorem closed_cases (s : List Char) : closed s = s ∧ startsAfter true s = true ∨ closed s = s ++ ['\n'] := by
  rw [closed]
  split
  · next h => exact .inl ⟨rfl, by simpa [startsAfter, endsLine, or_iff_not_imp_left] using h⟩
  · exact .inr rfl

theorem startsAfter_closed (s : List Char) : startsAfter true (closed s) = true := by
  rcases closed_cases s with ⟨heq, hstart⟩ | heq
  · rwa [heq]
  · rw [heq, startsAfter_append, startsAfter_cons]
    rfl

/-- Where all files are tidy no local rule is read in the bundle, whatever settled text it is put before. -/
theorem Woven.settled (h : Woven start ps files marks) (htidy : tidyPieces start ps = true)
    (hfiles : ∀ qs ∈ files, tidyPieces true qs = true) (hjoins : Joins (startsAfter start (charsOf marks)) t) :
    Settled start (charsOf marks ++ t) := by
  induction h generalizing t with
  | done => exact hjoins.settled
  | char _ hrest ih =>
      rw [tidyPieces, Bool.and_eq_true, Bool.not_eq_true', Bool.and_eq_false_iff] at htidy
      rw [charsOf_cons, Mark.chars, List.singleton_append, startsAfter_cons] at hjoins
      rw [charsOf_cons, Mark.chars, List.singleton_append, List.cons_append]
      refine .char (fun hstart => hrest.not_announced hjoins (htidy.1.resolve_left ?_)) (ih htidy.2 hfiles hjoins)
      simp [hstart]
  | kept hrule hremote hrest ih =>
      rw [tidyPieces, Bool.and_eq_true] at htidy
      rw [charsOf_cons, Mark.chars, startsAfter_append, startsAfter_of_ne_nil (text_ne_nil hrule)] at hjoins
      rw [charsOf_cons, Mark.chars, List.append_assoc]
      exact hrest.settled_kept hrule hremote hjoins (ih htidy.2 hfiles hjoins)
  | @inlined r ps qs files files' marks marks' hrule hlocal _ hwoven ihfile ihrest =>
      rw [tidyPieces, Bool.and_eq_true] at htidy
      obtain ⟨hqs, hfiles⟩ := List.forall_mem_cons.1 hfiles
      obtain ⟨hin, hbehind⟩ := List.forall_mem_append.1 hfiles
      rw [charsOf_append, charsOf_inlined, startsAfter_append, startsAfter_closed] at hjoins
      rw [charsOf_append, charsOf_inlined, List.append_assoc]
      -- either the import ends its line, or nothing stands behind it in the file
      have hrest : Settled true (charsOf marks' ++ t) := by
        cases hend : endsLine r.text with
        | true =>
            rw [hend] at htidy ihrest
            exact ihrest htidy.2 hbehind hjoins
        | false =>
            obtain rfl : ps = [] := by simpa [hlocal, hend] using htidy.1
            rw [hend] at hwoven
            cases hwoven
            exact hjoins.settled
      rcases closed_cases (charsOf marks) with ⟨heq, hstart⟩ | heq
      · rw [heq]
        exact ihfile hqs hin (.inl ⟨hstart, hrest⟩)
      · rw [heq, List.append_assoc]
        exact ihfile hqs hin (.inr (.inr ⟨_, rfl, hrest⟩))

end SiteTree.Stylesheet
