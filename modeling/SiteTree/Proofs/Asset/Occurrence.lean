import SiteTree.Proofs.Asset.Reference

/-!
Which quoted strings of a text are replaced: of all that are known, from the left, each one that
starts where the one replaced before it has ended or after that. The rest of the text is kept.
-/

namespace SiteTree.Asset

/-- A stretch of a text, and the new name of the file it refers to. -/
structure Occurrence where
  start : Nat
  stop : Nat
  new : String
  deriving DecidableEq, Repr

/-- The stretch is a quoted string on one line, and what is quoted is known. -/
def Occurs (renames : Renames) (s : List Char) (o : Occurrence) : Prop :=
  ∃ pre q body post, s = pre ++ q :: (body ++ q :: post) ∧ isQuote q = true ∧ q ∉ body ∧ '\n' ∉ body ∧
    Table.get? (String.ofList (bare body)) renames = some o.new ∧
    o.start = pre.length ∧ o.stop = pre.length + body.length + 2

/-- From the left, each one that starts at the limit or after it, which is then where that one stops. -/
def leftmost : Nat → List Occurrence → List Occurrence
  | _, [] => []
  | limit, o :: os => if limit ≤ o.start then o :: leftmost o.stop os else leftmost limit os

/-- The text from a position on, with what is at the occurrences replaced. -/
def splice : Nat → List Occurrence → List Char → List Char
  | _, [], s => s
  | i, o :: os, s =>
      s.take (o.start - i) ++ ('"' :: '.' :: '/' :: o.new.toList ++ ['"']) ++ splice o.stop os (s.drop (o.stop - i))

/-- The known reference a character opens, that stands at the position. -/
def occurrence? (renames : Renames) (i : Nat) (c : Char) (r : List Char) : Option Occurrence :=
  if isQuote c then
    (quoted? c r).bind fun found =>
      (Table.get? (String.ofList (bare found.1)) renames).map (⟨i, i + found.1.length + 2, ·⟩)
  else none

def occurrences (renames : Renames) : Nat → List Char → List Occurrence
  | _, [] => []
  | i, c :: r => (occurrence? renames i c r).toList ++ occurrences renames (i + 1) r

variable {renames : Renames} {c : Char} {r s u body rest : List Char} {o : Occurrence} {os : List Occurrence}
  {i limit : Nat} {new : String}

theorem occurrence?_eq_some : occurrence? renames i c r = some o ↔
    ∃ body rest, Opens renames c r body rest ∧ Table.get? (String.ofList (bare body)) renames = some o.new ∧
      o.start = i ∧ o.stop = i + body.length + 2 := by
  constructor
  · intro h
    rw [occurrence?] at h
    split at h
    · next hc =>
      obtain ⟨⟨body, rest⟩, hq, h⟩ := Option.bind_eq_some_iff.1 h
      obtain ⟨new, hnew, rfl⟩ := Option.map_eq_some_iff.1 h
      exact ⟨body, rest, ⟨hc, hq, by rw [hnew]; rfl⟩, hnew, rfl, rfl⟩
    · cases h
  · rintro ⟨body, rest, ⟨hc, hq, -⟩, hnew, rfl, hstop⟩
    rw [occurrence?, if_pos hc, hq, Option.bind_some, hnew, Option.map_some, ← hstop]

theorem occurrence?_eq_none (h : ∀ body rest, ¬ Opens renames c r body rest) : occurrence? renames i c r = none := by
  refine Option.eq_none_iff_forall_ne_some.2 fun o ho => ?_
  obtain ⟨body, rest, hopen, -⟩ := occurrence?_eq_some.1 ho
  exact h body rest hopen

theorem occurrences_of_opens (h : Opens renames c r body rest)
    (hnew : Table.get? (String.ofList (bare body)) renames = some new) : occurrences renames i (c :: r) =
      ⟨i, i + body.length + 2, new⟩ :: occurrences renames (i + 1) r := by
  rw [occurrences, occurrence?, if_pos h.1, h.2.1, Option.bind_some, hnew]
  rfl

theorem occurrences_of_not_opens (h : ∀ body rest, ¬ Opens renames c r body rest) :
    occurrences renames i (c :: r) = occurrences renames (i + 1) r := by
  rw [occurrences, occurrence?_eq_none h]
  rfl

theorem le_of_mem_occurrences (h : o ∈ occurrences renames i s) : i ≤ o.start ∧ o.start + 2 ≤ o.stop := by
  induction s generalizing i with
  | nil => cases h
  | cons c r ih =>
      rcases List.mem_append.1 h with hhead | htail
      · obtain ⟨body, rest, -, -, hstart, hstop⟩ := occurrence?_eq_some.1 (Option.mem_toList.1 hhead)
        omega
      · have := ih htail
        omega

theorem occurrences_sorted : (occurrences renames i s).Pairwise fun o p => o.start < p.start := by
  induction s generalizing i with
  | nil => exact .nil
  | cons c r ih =>
      refine List.pairwise_append.2 ⟨?_, ih, fun o ho p hp => ?_⟩
      · cases occurrence? renames i c r <;> simp
      · obtain ⟨body, rest, -, -, hstart, -⟩ := occurrence?_eq_some.1 (Option.mem_toList.1 ho)
        have := (le_of_mem_occurrences hp).1
        omega

/-- At a position there is one stretch at most, and it is told by what is read from there. -/
theorem occurs_at (pre : List Char) :
    Occurs renames (pre ++ c :: r) o ∧ o.start = pre.length ↔ occurrence? renames pre.length c r = some o := by
  rw [occurrence?_eq_some]
  constructor
  · rintro ⟨⟨pre', q, body, post, hs, hq, hbody, hline, hnew, hstart, hstop⟩, hat⟩
    obtain ⟨rfl, hchars⟩ := List.append_inj hs (hat.symm.trans hstart)
    obtain ⟨rfl, rfl⟩ := List.cons_eq_cons.1 hchars
    refine ⟨body, post, ⟨hq, quoted?_eq_some.2 ⟨rfl, hbody, hline⟩, ?_⟩, hnew, hstart, hstop⟩
    rw [hnew]
    rfl
  · rintro ⟨body, rest, ⟨hc, hq, -⟩, hnew, hstart, hstop⟩
    obtain ⟨rfl, hbody, hline⟩ := quoted?_eq_some.1 hq
    exact ⟨⟨pre, c, body, rest, rfl, hc, hbody, hline, hnew, hstart, hstop⟩, hstart⟩

theorem Occurs.lt_length (h : Occurs renames s o) : o.start < s.length := by
  obtain ⟨pre, q, body, post, rfl, -, -, -, -, hstart, -⟩ := h
  rw [hstart, List.length_append, List.length_cons]
  omega

theorem mem_occurrences (pre : List Char) :
    o ∈ occurrences renames pre.length s ↔ Occurs renames (pre ++ s) o ∧ pre.length ≤ o.start := by
  induction s generalizing pre with
  | nil =>
      refine ⟨fun h => absurd h List.not_mem_nil, fun ⟨h, hle⟩ => ?_⟩
      have := h.lt_length
      rw [List.append_nil] at this
      omega
  | cons c r ih =>
      have ih := ih (pre ++ [c])
      rw [List.append_assoc, List.length_append] at ih
      rw [occurrences, List.mem_append, Option.mem_toList, ← occurs_at,
        show pre.length + 1 = pre.length + [c].length from rfl, ih]
      constructor
      · rintro (⟨h, hat⟩ | ⟨h, hle⟩)
        · exact ⟨h, hat.ge⟩
        · exact ⟨h, by omega⟩
      · rintro ⟨h, hle⟩
        rcases hle.eq_or_lt with hat | hlt
        · exact .inl ⟨h, hat.symm⟩
        · exact .inr ⟨h, hlt⟩

theorem leftmost_succ (h : ∀ o ∈ os, i + 1 ≤ o.start) : leftmost i os = leftmost (i + 1) os := by
  cases os with
  | nil => rfl
  | cons o os =>
      have := h o List.mem_cons_self
      rw [leftmost, leftmost, if_pos (by omega), if_pos this]

theorem leftmost_of_lt (h : o.start < limit) : leftmost limit (o :: os) = leftmost limit os := by
  rw [leftmost, if_neg (Nat.not_le_of_lt h)]

/-- What starts before the limit is passed over. -/
theorem leftmost_append (h : i + u.length ≤ limit) : leftmost limit (occurrences renames i (u ++ s)) =
    leftmost limit (occurrences renames (i + u.length) s) := by
  induction u generalizing i with
  | nil => rfl
  | cons c u ih =>
      rw [List.length_cons] at h
      have ih := ih (i := i + 1) (by omega)
      rw [List.cons_append, occurrences, List.length_cons, show i + (u.length + 1) = i + 1 + u.length by omega, ← ih]
      cases ho : occurrence? renames i c (u ++ s) with
      | none => rfl
      | some o =>
          obtain ⟨body, rest, -, -, hstart, -⟩ := occurrence?_eq_some.1 ho
          exact leftmost_of_lt (by omega)

theorem mem_of_mem_leftmost (h : o ∈ leftmost limit os) : o ∈ os := by
  induction os generalizing limit with
  | nil => exact h
  | cons p os ih =>
      rw [leftmost] at h
      split at h
      · rcases List.mem_cons.1 h with rfl | h
        · exact List.mem_cons_self
        · exact List.mem_cons_of_mem _ (ih h)
      · exact List.mem_cons_of_mem _ (ih h)

/-- A character that opens nothing is kept. -/
theorem splice_cons (h : ∀ o ∈ os, i + 1 ≤ o.start ∧ i + 1 ≤ o.stop) :
    splice i os (c :: r) = c :: splice (i + 1) os r := by
  cases os with
  | nil => rfl
  | cons o os =>
      obtain ⟨hstart, hstop⟩ := h o List.mem_cons_self
      rw [splice, splice, show o.start - i = o.start - (i + 1) + 1 by omega,
        show o.stop - i = o.stop - (i + 1) + 1 by omega]
      rfl

/-- By the pieces: one that is a character opens nothing, and after one that is a reference all that
starts within it is passed over. -/
theorem replaced_eq_splice (i : Nat) : replaced renames s = splice i (leftmost i (occurrences renames i s)) s := by
  induction hn : s.length using Nat.strong_induction_on generalizing s i with
  | _ n ih =>
    cases s with
    | nil => simp [replaced, pieces, occurrences, leftmost, splice]
    | cons c r =>
        by_cases hopen : ∃ body rest, Opens renames c r body rest
        · obtain ⟨body, rest, hopen⟩ := hopen
          obtain ⟨new, hnew⟩ := Option.isSome_iff_exists.1 hopen.2.2
          obtain ⟨rfl, -⟩ := quoted?_eq_some.1 hopen.2.1
          have hrest : rest.length < n := by simp [← hn]; omega
          have hover : leftmost (i + body.length + 2) (occurrences renames (i + 1) (body ++ c :: rest)) =
              leftmost (i + body.length + 2) (occurrences renames (i + body.length + 2) rest) := by
            have : leftmost (i + body.length + 2) (occurrences renames (i + 1) ((body ++ [c]) ++ rest)) = _ :=
              leftmost_append (by simp; omega)
            rwa [List.append_assoc, List.length_append,
              show i + 1 + (body.length + [c].length) = i + body.length + 2 by simp; omega] at this
          have hdrop : (c :: (body ++ c :: rest)).drop (i + body.length + 2 - i) = rest := by
            rw [show i + body.length + 2 - i = body.length + 1 + 1 by omega, List.drop_succ_cons]
            simp
          rw [occurrences_of_opens hopen hnew, leftmost, if_pos le_rfl, hover, splice, replaced,
            pieces_of_opens hopen hnew, List.flatMap_cons, ← replaced, ih _ hrest (i + body.length + 2) rfl, hdrop]
          simp [Piece.chars]
        · have hplain : ∀ body rest, ¬ Opens renames c r body rest := fun body rest h => hopen ⟨body, rest, h⟩
          have hpast : ∀ o ∈ occurrences renames (i + 1) r, i + 1 ≤ o.start ∧ i + 1 ≤ o.stop := fun o ho => by
            have := le_of_mem_occurrences ho
            omega
          rw [occurrences_of_not_opens hplain, leftmost_succ fun o ho => (hpast o ho).1,
            splice_cons fun o ho => hpast o (mem_of_mem_leftmost ho), replaced, pieces_of_not_opens hplain,
            List.flatMap_cons, ← replaced, ih r.length (by simp [← hn]) (i + 1) rfl]
          rfl

theorem any_isReference (i : Nat) :
    (pieces renames s).any Piece.isReference = true ↔ occurrences renames i s ≠ [] := by
  induction s generalizing i with
  | nil => simp [pieces, occurrences]
  | cons c r ih =>
      by_cases hopen : ∃ body rest, Opens renames c r body rest
      · obtain ⟨body, rest, hopen⟩ := hopen
        obtain ⟨new, hnew⟩ := Option.isSome_iff_exists.1 hopen.2.2
        rw [pieces_of_opens hopen hnew, occurrences_of_opens hopen hnew]
        simp [Piece.isReference]
      · have hplain : ∀ body rest, ¬ Opens renames c r body rest := fun body rest h => hopen ⟨body, rest, h⟩
        rw [pieces_of_not_opens hplain, occurrences_of_not_opens hplain, ← ih]
        simp [Piece.isReference]

/-- Each turn takes a character at least. -/
theorem length_pieces_le : (pieces renames s).length ≤ s.length := by
  fun_induction pieces renames s with
  | case1 => rfl
  | case2 c r hc body rest hq new hnew ih =>
      have := quoted?_length hq
      simp only [List.length_cons]
      omega
  | case3 c r hc body rest hq hnone ih | case4 c r hc hq ih | case5 c r hc ih => simpa using ih

/-- The stretches are those of the text as it was, so what is put in is not looked at again. -/
theorem redirected_takes_leftmost (content : String) (renames : Renames) :
    (pieces renames content.toList).length ≤ content.toList.length ∧
    (redirect? content renames = none ↔ ∀ o, ¬ Occurs renames content.toList o) ∧
    ∃ os : List Occurrence, (∀ o, o ∈ os ↔ Occurs renames content.toList o) ∧
      os.Pairwise (fun o p => o.start < p.start) ∧
      (redirected content renames).toList = splice 0 (leftmost 0 os) content.toList := by
  have hmem : ∀ o, o ∈ occurrences renames 0 content.toList ↔ Occurs renames content.toList o := fun o =>
    (mem_occurrences []).trans (by simp)
  refine ⟨length_pieces_le, ?_, _, hmem, occurrences_sorted, ?_⟩
  · have hnone : redirect? content renames = none ↔ ¬ (pieces renames content.toList).any Piece.isReference = true := by
      rw [redirect?]
      split <;> simp_all
    rw [hnone, any_isReference 0, not_not, List.eq_nil_iff_forall_not_mem]
    exact forall_congr' fun o => not_congr (hmem o)
  · rw [redirected_toList, replaced_eq_splice 0]

end SiteTree.Asset
