import Mathlib.Data.List.TakeWhile
import SiteTree.Page

/-!
Blank lines of a rendered page. Cutting a page into its lines and taking it up place by place come to the
same thing: what goes are the blank lines, whole, and all other lines stay as they are and where they are.
-/

namespace SiteTree.Page

/-- The lines of a text, each with the line break that ends it. -/
def lines : List Char → List (List Char)
  | [] => []
  | c :: r =>
    if c = '\n' then [c] :: lines r
    else match lines r with
      | [] => [[c]]
      | l :: ls => (c :: l) :: ls

/-- A line of blanks alone, up to its line break or to the end of the text. -/
def isBlankLine (line : List Char) : Bool := [[], ['\n'], ['\r', '\n']].contains (line.dropWhile isIndent)

/-- A cut of a text into lines: each holds a line break at its end and nowhere else, and only the last may have none. -/
inductive Cut : List (List Char) → Prop
  | nil : Cut []
  | last {l : List Char} (hne : l ≠ []) (hl : '\n' ∉ l) : Cut [l]
  | line {l : List Char} {ls : List (List Char)} (hl : '\n' ∉ l) (hls : Cut ls) : Cut ((l ++ ['\n']) :: ls)

variable {l : List Char} {ls : List (List Char)} {n : Nat}

theorem cut_lines (s : List Char) : Cut (lines s) := by
  induction s with
  | nil => exact .nil
  | cons c r ih =>
      rw [lines]
      split
      · next hc =>
        subst hc
        exact .line (l := []) nofun ih
      · next hc =>
        generalize lines r = ls at ih
        cases ih with
        | nil => exact .last nofun (List.not_mem_cons_of_ne_of_not_mem (Ne.symm hc) nofun)
        | last hne hl => exact .last nofun (List.not_mem_cons_of_ne_of_not_mem (Ne.symm hc) hl)
        | @line l ls hl hls =>
            show Cut (((c :: l) ++ ['\n']) :: ls)
            exact .line (List.not_mem_cons_of_ne_of_not_mem (Ne.symm hc) hl) hls

theorem flatten_lines (s : List Char) : (lines s).flatten = s := by
  induction s with
  | nil => rfl
  | cons c r ih =>
      rw [lines]
      split
      · rw [List.flatten_cons, ih]
        rfl
      · split
        · next hr =>
          rw [hr] at ih
          rw [← ih]
          rfl
        · next l ls hr =>
          rw [hr] at ih
          rw [← ih]
          rfl

theorem lines_last (hne : l ≠ []) (hl : '\n' ∉ l) : lines l = [l] := by
  induction l with
  | nil => exact absurd rfl hne
  | cons c l ih =>
      obtain ⟨hc, hl⟩ := not_or.1 (List.mem_cons.not.1 hl)
      rw [lines, if_neg (Ne.symm hc)]
      cases l with
      | nil => rfl
      | cons d l => rw [ih nofun hl]

theorem lines_line (hl : '\n' ∉ l) (r : List Char) : lines (l ++ '\n' :: r) = (l ++ ['\n']) :: lines r := by
  induction l with
  | nil => simp [lines]
  | cons c l ih =>
      obtain ⟨hc, hl⟩ := not_or.1 (List.mem_cons.not.1 hl)
      rw [List.cons_append, lines, if_neg (Ne.symm hc), ih hl]
      rfl

/-- A text has no other cut than that into its lines. -/
theorem Cut.lines_flatten (h : Cut ls) : lines ls.flatten = ls := by
  induction h with
  | nil => rfl
  | last hne hl => simpa using lines_last hne hl
  | @line l ls hl hls ih =>
      have htext : ((l ++ ['\n']) :: ls).flatten = l ++ '\n' :: ls.flatten := by simp
      rw [htext, lines_line hl, ih]

theorem Cut.filter (h : Cut ls) (p : List Char → Bool) : Cut (ls.filter p) := by
  induction h with
  | nil => exact .nil
  | last hne hl =>
      rw [List.filter_cons]
      split
      · exact .last hne hl
      · exact .nil
  | line hl hls ih =>
      rw [List.filter_cons]
      split
      · exact .line hl ih
      · exact ih

/-- A line break or the end comes right after the longest indent: no shorter one can be followed by either. -/
theorem afterBlank?_eq (s : List Char) : afterBlank? s = afterBreak? (s.dropWhile isIndent) := by
  induction s with
  | nil => rfl
  | cons c r ih =>
      rw [afterBlank?, afterIndent, List.dropWhile_cons]
      split
      · next hc =>
        have hstop : afterBreak? (c :: r) = none := by
          simp only [isIndent, Bool.or_eq_true, decide_eq_true_eq] at hc
          rcases hc with rfl | rfl <;> rfl
        rw [List.findSome?_append, ← afterBlank?, ih, List.findSome?_singleton, hstop, Option.or_none]
      · rw [List.nil_append, List.findSome?_singleton]

theorem afterBreak?_last (hl : '\n' ∉ l) : afterBreak? l = if l = [] then some [] else none := by
  rw [afterBreak?.eq_def]
  split
  · exact absurd (by simp) hl
  · exact absurd (by simp) hl
  · rfl
  · next hne => rw [if_neg hne]

theorem afterBreak?_line (hl : '\n' ∉ l) (r : List Char) :
    afterBreak? (l ++ '\n' :: r) = if l = [] ∨ l = ['\r'] then some r else none := by
  rcases l with _ | ⟨c, l⟩
  · rfl
  · obtain ⟨hc, hl⟩ := not_or.1 (List.mem_cons.not.1 hl)
    rcases l with _ | ⟨d, l⟩
    · by_cases hcr : c = '\r'
      · subst hcr
        rfl
      · rw [if_neg (by simp [hcr]), afterBreak?.eq_def]
        split <;> simp_all
    · obtain ⟨hd, -⟩ := not_or.1 (List.mem_cons.not.1 hl)
      rw [if_neg (by simp), afterBreak?.eq_def]
      split <;> simp_all

theorem dropWhile_line (l r : List Char) : (l ++ '\n' :: r).dropWhile isIndent = l.dropWhile isIndent ++ '\n' :: r := by
  rw [List.dropWhile_append]
  split
  · next h =>
    rw [List.isEmpty_iff.1 h]
    rfl
  · rfl

theorem not_mem_dropWhile (hl : '\n' ∉ l) : '\n' ∉ l.dropWhile isIndent :=
  fun h => hl ((List.dropWhile_suffix isIndent).mem h)

theorem isBlankLine_eq (line : List Char) : isBlankLine line = true ↔ line.dropWhile isIndent = [] ∨
    line.dropWhile isIndent = ['\n'] ∨ line.dropWhile isIndent = ['\r', '\n'] := by
  rw [isBlankLine, List.contains_iff_mem]
  simp only [List.mem_cons, List.not_mem_nil, or_false]

theorem afterBlank?_last (hl : '\n' ∉ l) : afterBlank? l = if isBlankLine l then some [] else none := by
  have hd := not_mem_dropWhile hl
  rw [afterBlank?_eq, afterBreak?_last hd]
  refine if_congr ?_ rfl rfl
  rw [isBlankLine_eq]
  constructor
  · exact .inl
  · rintro (h | h | h)
    · exact h
    · simp [h] at hd
    · simp [h] at hd

theorem afterBlank?_line (hl : '\n' ∉ l) (r : List Char) :
    afterBlank? (l ++ '\n' :: r) = if isBlankLine (l ++ ['\n']) then some r else none := by
  rw [afterBlank?_eq, dropWhile_line, afterBreak?_line (not_mem_dropWhile hl)]
  refine if_congr ?_ rfl rfl
  rw [isBlankLine_eq, dropWhile_line]
  generalize l.dropWhile isIndent = d
  constructor
  · rintro (rfl | rfl)
    · exact .inr (.inl rfl)
    · exact .inr (.inr rfl)
  · rintro (h | h | h)
    · simp at h
    · exact .inl ((List.append_left_inj ['\n']).1 h)
    · exact .inr ((List.append_left_inj ['\n']).1 h)

/-- Within a line nothing is taken out. -/
theorem dropBlankFrom_last (hl : '\n' ∉ l) (hn : l.length ≤ n) : dropBlankFrom n false l = l := by
  induction l generalizing n with
  | nil => cases n <;> rfl
  | cons c l ih =>
      obtain ⟨hc, hl⟩ := not_or.1 (List.mem_cons.not.1 hl)
      cases n with
      | zero => cases hn
      | succ n =>
          show c :: dropBlankFrom n (c = '\n') l = c :: l
          rw [decide_eq_false (Ne.symm hc), ih hl (Nat.le_of_succ_le_succ hn)]

theorem dropBlankFrom_line (hl : '\n' ∉ l) (r : List Char) (n : Nat) :
    dropBlankFrom (l.length + 1 + n) false (l ++ '\n' :: r) = l ++ '\n' :: dropBlankFrom n true r := by
  induction l with
  | nil =>
      rw [List.length_nil, Nat.zero_add, Nat.add_comm]
      rfl
  | cons c l ih =>
      obtain ⟨hc, hl⟩ := not_or.1 (List.mem_cons.not.1 hl)
      have hlen : (c :: l).length + 1 + n = l.length + 1 + n + 1 := by rw [List.length_cons]; omega
      rw [hlen]
      show c :: dropBlankFrom (l.length + 1 + n) (c = '\n') (l ++ '\n' :: r) = _
      rw [decide_eq_false (Ne.symm hc), ih hl]
      rfl

theorem dropBlankFrom_start {s : List Char} (h : afterBlank? s = none) (n : Nat) :
    dropBlankFrom n true s = dropBlankFrom n false s := by
  cases n with
  | zero => rfl
  | succ n =>
      cases s with
      | nil => rfl
      | cons c r =>
          rw [dropBlankFrom, if_pos rfl, h]
          rfl

theorem dropBlankFrom_blank {s r : List Char} (h : afterBlank? s = some r) (hs : s ≠ []) (n : Nat) :
    dropBlankFrom (n + 1) true s = dropBlankFrom n true r := by
  cases s with
  | nil => exact absurd rfl hs
  | cons c s => rw [dropBlankFrom, if_pos rfl, h]

/-- Line by line: a blank line is taken out at once, any other is gone through to its end. -/
theorem Cut.dropBlankFrom_eq (h : Cut ls) (hn : ls.flatten.length ≤ n) :
    dropBlankFrom n true ls.flatten = (ls.filter (!isBlankLine ·)).flatten := by
  induction h generalizing n with
  | nil => cases n <;> rfl
  | @last l hne hl =>
      rw [List.flatten_singleton] at hn ⊢
      rw [List.filter_cons]
      have hblank := afterBlank?_last hl
      cases hb : isBlankLine l with
      | true =>
          rw [hb] at hblank
          have hpos : 0 < l.length := List.length_pos_iff.2 hne
          obtain ⟨m, rfl⟩ : ∃ m, n = m + 1 := Nat.exists_eq_succ_of_ne_zero (by omega)
          rw [dropBlankFrom_blank hblank hne]
          cases m <;> rfl
      | false =>
          rw [hb] at hblank
          rw [dropBlankFrom_start hblank, dropBlankFrom_last hl hn]
          simp
  | @line l ls hl hls ih =>
      have htext : ((l ++ ['\n']) :: ls).flatten = l ++ '\n' :: ls.flatten := by simp
      rw [htext] at hn ⊢
      rw [List.length_append, List.length_cons] at hn
      rw [List.filter_cons]
      have hblank := afterBlank?_line hl ls.flatten
      cases hb : isBlankLine (l ++ ['\n']) with
      | true =>
          rw [hb] at hblank
          obtain ⟨m, rfl⟩ : ∃ m, n = m + 1 := Nat.exists_eq_succ_of_ne_zero (by omega)
          rw [dropBlankFrom_blank hblank (by simp), ih (by omega)]
          rfl
      | false =>
          rw [hb] at hblank
          obtain ⟨m, rfl⟩ : ∃ m, n = l.length + 1 + m := Nat.exists_eq_add_of_le (by omega)
          rw [dropBlankFrom_start hblank, dropBlankFrom_line hl, ih (by omega)]
          simp

theorem isBlankLine_iff (line : List Char) : isBlankLine line = true ↔
    ∃ indent, (∀ c ∈ indent, c = ' ' ∨ c = '\t') ∧
      (line = indent ∨ line = indent ++ ['\n'] ∨ line = indent ++ ['\r', '\n']) := by
  have hindent : ∀ c, isIndent c = true ↔ c = ' ' ∨ c = '\t' := by simp [isIndent]
  rw [isBlankLine_eq]
  constructor
  · intro h
    have hline : line = line.takeWhile isIndent ++ line.dropWhile isIndent := (List.takeWhile_append_dropWhile).symm
    refine ⟨line.takeWhile isIndent, fun c hc => (hindent c).1 (List.mem_takeWhile_imp hc), ?_⟩
    rcases h with h | h | h
    · rw [h, List.append_nil] at hline
      exact .inl hline
    · rw [h] at hline
      exact .inr (.inl hline)
    · rw [h] at hline
      exact .inr (.inr hline)
  · rintro ⟨indent, hall, h⟩
    have hdrop : ∀ e, (indent ++ e).dropWhile isIndent = e.dropWhile isIndent := fun e =>
      List.dropWhile_append_of_pos fun c hc => (hindent c).2 (hall c hc)
    rcases h with rfl | rfl | rfl
    · have hnil := hdrop []
      rw [List.append_nil] at hnil
      exact .inl hnil
    · exact .inr (.inl (hdrop ['\n']))
    · exact .inr (.inr (hdrop ['\r', '\n']))

theorem dropBlankLines_eq (s : String) :
    (dropBlankLines s).toList = ((lines s.toList).filter (!isBlankLine ·)).flatten := by
  have hcut : dropBlankFrom s.toList.length true (lines s.toList).flatten = _ :=
    (cut_lines s.toList).dropBlankFrom_eq (by rw [flatten_lines])
  rw [dropBlankLines, String.toList_ofList, ← hcut, flatten_lines]

theorem lines_dropBlankLines (s : String) :
    lines (dropBlankLines s).toList = (lines s.toList).filter (!isBlankLine ·) := by
  rw [dropBlankLines_eq]
  exact ((cut_lines s.toList).filter _).lines_flatten

/-- A page without its blank lines is what its other lines come to, one after another and as they were. Their ends
are the ends of lines still, so that no two of them are joined, none that is left is blank, and there is nothing
to take out a second time. -/
theorem dropBlankLines_filters (s : String) :
    (lines s.toList).flatten = s.toList ∧ Cut (lines s.toList) ∧
    (∀ line, isBlankLine line = true ↔ ∃ indent, (∀ c ∈ indent, c = ' ' ∨ c = '\t') ∧
      (line = indent ∨ line = indent ++ ['\n'] ∨ line = indent ++ ['\r', '\n'])) ∧
    (dropBlankLines s).toList = ((lines s.toList).filter (!isBlankLine ·)).flatten ∧
    lines (dropBlankLines s).toList = (lines s.toList).filter (!isBlankLine ·) ∧
    (∀ line ∈ lines (dropBlankLines s).toList, isBlankLine line = false) ∧
    dropBlankLines (dropBlankLines s) = dropBlankLines s := by
  have hlines := lines_dropBlankLines s
  have hleft : ∀ line ∈ lines (dropBlankLines s).toList, isBlankLine line = false := by
    intro line hline
    rw [hlines] at hline
    simpa using (List.mem_filter.1 hline).2
  refine ⟨flatten_lines _, cut_lines _, isBlankLine_iff, dropBlankLines_eq s, hlines, hleft, ?again⟩
  case again =>
    have hall : ∀ line ∈ lines (dropBlankLines s).toList, (!isBlankLine line) = true := fun line hline => by
      rw [hleft line hline]
      rfl
    rw [← String.toList_inj, dropBlankLines_eq, List.filter_eq_self.2 hall, flatten_lines]

theorem dropBlankLines_gappy : dropBlankLines "a\n \t\r\n\n b\r\n  " = "a\n b\r\n" ∧
    " b\r\n".toList ∈ lines (dropBlankLines "a\n \t\r\n\n b\r\n  ").toList ∧ isBlankLine " b\r\n".toList = false := by
  have hmem : " b\r\n".toList ∈ lines (dropBlankLines "a\n \t\r\n\n b\r\n  ").toList := by decide +kernel
  obtain ⟨-, -, -, -, -, hleft, -⟩ := dropBlankLines_filters "a\n \t\r\n\n b\r\n  "
  exact ⟨by decide +kernel, hmem, hleft _ hmem⟩

end SiteTree.Page
