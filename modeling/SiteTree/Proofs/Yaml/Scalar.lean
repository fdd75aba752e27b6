import SiteTree.Proofs.Json.Reader
import SiteTree.Yaml.Token

/-!
Strings, numbers and words of a JSON document as scalars of a YAML one. A string ends where it ends in JSON, and as
long as no line ends in it, it says the same; what stands bare is its own text.
-/

namespace SiteTree.Yaml

open Json Number

variable {body r T : List Char} {c c' : Cursor} {f f' : Folding} {n : Nat}

theorem not_isBreak_of_shortEscape {a d : Char} (h : (a, d) ∈ shortEscapes) : isBreak a = false := by
  have hall : ∀ p ∈ shortEscapes, isBreak p.1 = false := by decide
  exact hall _ h

theorem escape?_short {a d : Char} {u : List Char} (h : (a, d) ∈ shortEscapes) (hc : c.rest = a :: u) :
    escape? c = some (d, c.skip) := by
  rw [escape?, hc]
  simp only [shortEscapes, List.mem_cons, Prod.mk.injEq, List.not_mem_nil, or_false] at h
  rcases h with ⟨rfl, rfl⟩ | ⟨rfl, rfl⟩ | ⟨rfl, rfl⟩ | ⟨rfl, rfl⟩ | ⟨rfl, rfl⟩ | ⟨rfl, rfl⟩ | ⟨rfl, rfl⟩ | ⟨rfl, rfl⟩ <;> rfl

theorem escape?_unit {a b d e k : Char} {u : List Char} (ha : IsHex a) (hb : IsHex b) (hd : IsHex d) (he : IsHex e)
    (hc : c.rest = 'u' :: a :: b :: d :: e :: u) (h : escape? c = some (k, c')) :
    c' = c.skipMany 5 ∧ ∃ n, readHex? [a, b, d, e] = some (n, []) ∧ (n < 0xD800 ∨ 0xDFFF < n) ∧ k = Char.ofNat n := by
  obtain ⟨i, hi⟩ := Option.isSome_iff_exists.1 ha
  obtain ⟨j, hj⟩ := Option.isSome_iff_exists.1 hb
  obtain ⟨l, hl⟩ := Option.isSome_iff_exists.1 hd
  obtain ⟨m, hm⟩ := Option.isSome_iff_exists.1 he
  have hlookup : escapes.lookup 'u' = none := by decide
  have hvalue : hexNumber? [a, b, d, e] = some (((i * 16 + j) * 16 + l) * 16 + m) := by
    simp [hexNumber?, hi, hj, hl, hm]
  rw [escape?, hc] at h
  simp only [hlookup, escapeLength, Option.bind_eq_bind, Option.bind_some] at h
  obtain ⟨v, hv, h⟩ := Option.bind_eq_some_iff.1 h
  cases hvalue.symm.trans hv
  rw [Option.ite_none_left_eq_some] at h
  obtain ⟨hfits, hk⟩ := h
  cases hk
  refine ⟨rfl, ((i * 16 + j) * 16 + l) * 16 + m, by simp [readHex?, hi, hj, hl, hm], ?_, rfl⟩
  simp only [Bool.or_eq_true, Bool.and_eq_true, decide_eq_true_eq, not_or] at hfits
  omega

theorem skip_rest {a : Char} {u : List Char} (hc : c.rest = a :: u) : c.skip.rest = u := by
  rw [Cursor.skip, hc]

theorem skip_line (c : Cursor) : c.skip.line = c.line := by
  rw [Cursor.skip]
  split <;> rfl

theorem skipMany_line (c : Cursor) (n : Nat) : (c.skipMany n).line = c.line := by
  induction n generalizing c with
  | zero => rfl
  | succ n ih => rw [Cursor.skipMany, ih, skip_line]

theorem skipMany_rest {u v : List Char} (hc : c.rest = u ++ v) : (c.skipMany u.length).rest = v := by
  induction u generalizing c with
  | nil => exact hc
  | cons a u ih => exact ih (skip_rest hc)

theorem skipLine_rest {a : Char} {u : List Char} (hc : c.rest = a :: u) (ha : isBreak a = true) (hreturn : a ≠ '\r') :
    c.skipLine.2.rest = u ∧ c.skipLine.2.line = c.line + 1 := by
  rw [Cursor.skipLine, hc]
  split
  · next heq => cases heq; exact absurd rfl hreturn
  · next heq => cases heq; rw [if_pos ha]; exact ⟨rfl, rfl⟩
  · next heq => cases heq

theorem quotedRun_char {a : Char} {u : List Char} (hc : c.rest = a :: u) (hgap : (isGap a || isBreak a) = false)
    (hquote : a ≠ '"') (hescape : a ≠ '\\') : quotedRun '"' (n + 1) f c = quotedRun '"' n (f.push a) c.skip := by
  simp [quotedRun, hc, hgap, hquote, hescape]

theorem quotedRun_escape {u : List Char} (hc : c.rest = '\\' :: u) (hbreak : c.seesAt 1 isBreak = false) :
    quotedRun '"' (n + 1) f c = (escape? c.skip).bind fun p => quotedRun '"' n (f.push p.1) p.2 := by
  simp [quotedRun, hc, hbreak, show (isGap '\\' || isBreak '\\') = false by decide]

theorem quotedRun_stop {a : Char} {u : List Char} (hc : c.rest = a :: u) (ha : (isGap a || isBreak a) = true ∨ a = '"') :
    quotedRun '"' (n + 1) f c = some (f, c) := by
  rcases ha with hgap | rfl
  · simp only [quotedRun, hc, hgap, if_true]
  · simp [quotedRun, hc]

/-- Up to the end of the run the string is read as it stands, with its escapes resolved. -/
theorem quotedRun_body (hc : c.rest = body ++ '"' :: r) (hbody : IsBody body) (h : quotedRun '"' n f c = some (f', c')) :
    ∃ body' u, c'.rest = body' ++ '"' :: r ∧ IsBody body' ∧ body' <:+ body ∧
      f' = { f with text := u.reverse ++ f.text } ∧ c'.line = c.line ∧ ∀ t, Says body' t → Says body (u ++ t) := by
  induction n generalizing f c body with
  | zero =>
      cases h
      exact ⟨body, [], hc, hbody, List.suffix_refl _, rfl, rfl, fun t ht => ht⟩
  | succ n ih =>
      cases hbody with
      | nil =>
          cases (quotedRun_stop hc (.inr rfl)).symm.trans h
          exact ⟨[], [], hc, .nil, List.suffix_refl _, rfl, rfl, fun t ht => ht⟩
      | @char a s hquote hescape ha hs =>
          cases hgap : (isGap a || isBreak a) with
          | true =>
              cases (quotedRun_stop hc (.inl hgap)).symm.trans h
              exact ⟨a :: s, [], hc, .char hquote hescape ha hs, List.suffix_refl _, rfl, rfl, fun t ht => ht⟩
          | false =>
              rw [quotedRun_char hc hgap hquote hescape] at h
              obtain ⟨body', u, hrest, hbody', hsuffix, rfl, hline, hsaid⟩ := ih (skip_rest hc) hs h
              refine ⟨body', a :: u, hrest, hbody', hsuffix.trans (List.suffix_cons a s), ?_,
                hline.trans (skip_line c), fun t ht => ?_⟩
              · simp [Folding.push]
              · exact .char hquote hescape ha (hsaid t ht)
      | @short a d s ha hs =>
          have hbreak : c.seesAt 1 isBreak = false := by
            rw [Cursor.seesAt, hc]
            exact not_isBreak_of_shortEscape ha
          rw [quotedRun_escape hc hbreak, escape?_short ha (skip_rest hc), Option.bind_some] at h
          obtain ⟨body', u, hrest, hbody', hsuffix, rfl, hline, hsaid⟩ := ih (skip_rest (skip_rest hc)) hs h
          refine ⟨body', d :: u, hrest, hbody', hsuffix.trans (List.suffix_append ['\\', a] s), ?_, ?_, fun t ht => ?_⟩
          · simp [Folding.push]
          · rw [hline, skip_line, skip_line]
          · exact .short ha (hsaid t ht)
      | @unit a b d e s ha hb hd he hs =>
          have hbreak : c.seesAt 1 isBreak = false := by
            rw [Cursor.seesAt, hc]
            rfl
          rw [quotedRun_escape hc hbreak] at h
          obtain ⟨⟨k, c₁⟩, hescape, h⟩ := Option.bind_eq_some_iff.1 h
          have hrest : c.skip.rest = ['u', a, b, d, e] ++ (s ++ '"' :: r) := skip_rest hc
          obtain ⟨rfl, n, hn, hwhole, rfl⟩ := escape?_unit ha hb hd he hrest hescape
          obtain ⟨body', u, hrest, hbody', hsuffix, rfl, hline, hsaid⟩ := ih (skipMany_rest hrest) hs h
          refine ⟨body', Char.ofNat n :: u, hrest, hbody', hsuffix.trans (List.suffix_append ['\\', 'u', a, b, d, e] s), ?_, ?_,
            fun t ht => ?_⟩
          · simp [Folding.push]
          · rw [hline, skipMany_line, skip_line]
          · exact .unit hn hwhole (hsaid t ht)

/-- Gaps have been skipped in a string. Up to the cursor `c'` they are kept, unless a line ends in them. -/
structure SkipsGaps (body r : List Char) (f : Folding) (c : Cursor) (f' : Folding) (c' : Cursor) (body' : List Char) : Prop where
  rest : c'.rest = body' ++ '"' :: r
  isBody : IsBody body'
  suffix : body' <:+ body
  line : c.line ≤ c'.line
  unbroken : (∀ a ∈ body, isBreak a = false) → c'.line = c.line
  kept : c'.line = c.line → f.broken = false → ∃ g, f' = { f with gap := f.gap ++ g } ∧ ∀ t, Says body' t → Says body (g ++ t)

theorem SkipsGaps.refl (hc : c.rest = body ++ '"' :: r) (hbody : IsBody body) (f : Folding) : SkipsGaps body r f c f c body where
  rest := hc
  isBody := hbody
  suffix := List.suffix_refl _
  line := le_rfl
  unbroken _ := rfl
  kept _ _ := ⟨[], by simp, fun _ ht => ht⟩

theorem skipGaps_body (hc : c.rest = body ++ '"' :: r) (hbody : IsBody body)
    (h : f.skipGaps none n c = some (f', c')) : ∃ body', SkipsGaps body r f c f' c' body' := by
  induction n generalizing f c body with
  | zero =>
      cases h
      exact ⟨body, .refl hc hbody _⟩
  | succ n ih =>
      have hstop {a : Char} {u : List Char} (hrest : c.rest = a :: u) (hgap : isGap a = false) (hbreak : isBreak a = false) :
          ∃ body', SkipsGaps body r f c f' c' body' := by
        simp only [Folding.skipGaps, hrest, hgap, hbreak, Bool.false_eq_true, if_false, Option.some.injEq, Prod.mk.injEq] at h
        obtain ⟨rfl, rfl⟩ := h
        exact ⟨body, .refl hc hbody _⟩
      cases hbody with
      | nil => exact hstop hc rfl (by decide)
      | short ha hs => exact hstop hc rfl (by decide)
      | unit ha hb hd he hs => exact hstop hc rfl (by decide)
      | @char a s hquote hescape ha hs =>
          cases hgap : isGap a with
          | true =>
              have hnext : f.skipGaps none (n + 1) c =
                  Folding.skipGaps none n (if f.broken then f else { f with gap := f.gap ++ [a] }) c.skip := by
                cases hbroken : f.broken <;> simp [Folding.skipGaps, hc, hgap, hbroken]
              rw [hnext] at h
              obtain ⟨body', hskips⟩ := ih (skip_rest hc) hs h
              have hline := skip_line c
              refine ⟨body', hskips.rest, hskips.isBody, hskips.suffix.trans (List.suffix_cons a s), hline ▸ hskips.line,
                fun hall => hline ▸ hskips.unbroken fun b hb => hall b (List.mem_cons_of_mem a hb), fun heq hbroken => ?_⟩
              obtain ⟨g, rfl, hsaid⟩ := hskips.kept (heq.trans hline.symm) (by simp [hbroken])
              exact ⟨a :: g, by simp [hbroken], fun t ht => .char hquote hescape ha (hsaid t ht)⟩
          | false =>
              cases hbreak : isBreak a with
              | false => exact hstop hc hgap hbreak
              | true =>
                  have hreturn : a ≠ '\r' := by rintro rfl; exact absurd ha (by decide)
                  obtain ⟨hrest, hline⟩ := skipLine_rest hc hbreak hreturn
                  obtain ⟨f₁, hnext⟩ : ∃ f₁ : Folding, f.skipGaps none (n + 1) c = f₁.skipGaps none n c.skipLine.2 := by
                    refine ⟨if f.broken then { f with more := f.more ++ c.skipLine.1 }
                      else { f with gap := [], first := c.skipLine.1, broken := true }, ?_⟩
                    cases hbroken : f.broken <;> simp [Folding.skipGaps, hc, hgap, hbreak, hbroken]
                  rw [hnext] at h
                  obtain ⟨body', hskips⟩ := ih hrest hs h
                  have hless : c.line < c'.line := by
                    have := hskips.line
                    omega
                  refine ⟨body', hskips.rest, hskips.isBody, hskips.suffix.trans (List.suffix_cons a s), hless.le,
                    fun hall => ?_, fun heq => absurd heq hless.ne'⟩
                  exact absurd hbreak (by simp [hall a List.mem_cons_self])

/-- A string ends where it ends in JSON, and says the same if no line ends in it. -/
theorem quotedScalar_body {text : List Char} (hc : c.rest = body ++ '"' :: r) (hbody : IsBody body)
    (hbroken : f.broken = false) (hgap : f.gap = []) (h : quotedScalar '"' n f c = some (text, c')) :
    c'.rest = r ∧ c.line ≤ c'.line ∧ ((∀ a ∈ body, isBreak a = false) → c'.line = c.line) ∧
      (c'.line = c.line → ∃ t, Says body t ∧ text = f.text.reverse ++ t) := by
  induction n generalizing f c body with
  | zero => cases h
  | succ n ih =>
      rw [quotedScalar] at h
      simp only [Option.ite_none_left_eq_some, Option.bind_eq_bind, Option.bind_eq_some_iff] at h
      obtain ⟨-, ⟨f₁, c₁⟩, hrun, h⟩ := h
      obtain ⟨body₁, u, hrest₁, hbody₁, hsuffix₁, rfl, hline₁, hsaid₁⟩ := quotedRun_body hc hbody hrun
      dsimp only at h
      split at h
      · next hend =>
          cases h
          have hnil : body₁ = [] := by
            cases hbody₁ with
            | nil => rfl
            | char hquote => exact absurd hend (by simp [Cursor.seesChar, Cursor.sees, hrest₁, hquote])
            | short => exact absurd hend (by simp [Cursor.seesChar, Cursor.sees, hrest₁])
            | unit => exact absurd hend (by simp [Cursor.seesChar, Cursor.sees, hrest₁])
          subst hnil
          have hline : c₁.skip.line = c.line := by rw [skip_line, hline₁]
          exact ⟨skip_rest hrest₁, hline.ge, fun _ => hline, fun _ => ⟨u ++ [], hsaid₁ [] .nil, by simp⟩⟩
      · obtain ⟨⟨f₂, c₂⟩, hgaps, h⟩ := Option.bind_eq_some_iff.1 h
        obtain ⟨body₂, hskips⟩ := skipGaps_body hrest₁ hbody₁ hgaps
        obtain ⟨hrest, hline, hunbroken, hsaid⟩ := ih hskips.rest hskips.isBody rfl rfl h
        have hline₂ := hskips.line
        refine ⟨hrest, by omega, fun hall => ?_, fun heq => ?_⟩
        · have h₁ : ∀ a ∈ body₁, isBreak a = false := fun a ha => hall a (hsuffix₁.subset ha)
          rw [hunbroken fun a ha => h₁ a (hskips.suffix.subset ha), hskips.unbroken h₁, hline₁]
        · obtain ⟨g, rfl, hsaid₂⟩ := hskips.kept (by omega) hbroken
          obtain ⟨t, ht, rfl⟩ := hsaid (by omega)
          exact ⟨u ++ (g ++ t), hsaid₁ _ (hsaid₂ t ht), by simp [Folding.close, hbroken, hgap]⟩

variable {inFlow : Bool} {t u : List Char} {a : Char}

/-- A character that neither ends a plain scalar nor folds it. -/
def isCalm (a : Char) : Bool := !isGap a && !isBreak a && !inFlowEnd a && a ≠ ':' && a ≠ '#' && a ≠ '\uFEFF'

theorem isCalm_iff {a : Char} : isCalm a = true ↔
    isGap a = false ∧ isBreak a = false ∧ inFlowEnd a = false ∧ a ≠ ':' ∧ a ≠ '#' ∧ a ≠ '\uFEFF' := by
  simp [isCalm, and_assoc]

theorem isCalm_of_isDigit {a : Char} (h : isDigit a = true) : isCalm a = true := by
  have hrange := isDigit_iff.1 h
  have hne {b : Char} (hb : isDigit b = false) : a ≠ b := ne_of_isDigit h hb
  rw [isCalm_iff]
  refine ⟨?_, ?_, ?_, hne (by decide), hne (by decide), hne (by decide)⟩
  · simp [isGap, hne (b := ' ') (by decide), hne (b := '\t') (by decide)]
  · simp [isBreak, hne (b := '\n') (by decide), hne (b := '\r') (by decide)]
    omega
  · simp only [inFlowEnd, Bool.or_eq_false_iff, decide_eq_false_iff_not]
    exact ⟨⟨⟨⟨hne (by decide), hne (by decide)⟩, hne (by decide)⟩, hne (by decide)⟩, hne (by decide)⟩

theorem calm_of_isBare {t : List Char} (h : IsBare t) : ∀ a ∈ t, isCalm a = true := by
  have hdigits {s : List Char} (hs : IsDigits s) : ∀ a ∈ s, isCalm a = true := fun a ha => isCalm_of_isDigit (hs.2 a ha)
  have hall {l : List (List Char)} (hl : l.all (·.all isCalm) = true) : ∀ s ∈ l, ∀ a ∈ s, isCalm a = true :=
    fun s hs => List.all_eq_true.1 (List.all_eq_true.1 hl s hs)
  rcases h with hword | ⟨sign, whole, fraction, exponent, rfl, hsign, hwhole, hfraction, hexponent⟩
  · exact hall (by decide) t hword
  · intro a ha
    simp only [List.mem_append] at ha
    rcases ha with ha | ha | ha | ha
    · exact hall (by decide) sign hsign a ha
    · rcases hwhole with rfl | ⟨hwhole, -⟩
      · exact isCalm_of_isDigit (List.mem_singleton.1 ha ▸ rfl)
      · exact hdigits hwhole a ha
    · rcases hfraction with rfl | ⟨digits, rfl, hd⟩
      · cases ha
      · rcases List.mem_cons.1 ha with rfl | ha
        · decide
        · exact hdigits hd a ha
    · rcases hexponent with rfl | ⟨e, s, digits, rfl, he, hs, hd⟩
      · cases ha
      · rcases List.mem_cons.1 ha with rfl | ha
        · exact List.all_eq_true.1 (by decide) a he
        · rcases List.mem_append.1 ha with ha | ha
          · exact hall (by decide) s hs a ha
          · exact hdigits hd a ha

/-- Characters that only scalars begin with. -/
def isInitial (a : Char) : Bool := !Scan.indicators.contains a && a ≠ '.'

theorem isInitial_of_isDigit {a : Char} (ha : isDigit a = true) : isInitial a = true := by
  simp only [isInitial, Bool.and_eq_true, Bool.not_eq_true', decide_eq_true_eq]
  refine ⟨?_, ne_of_isDigit ha (by decide)⟩
  rw [List.contains_eq_mem, decide_eq_false_iff_not]
  intro hmem
  have hnone : ∀ b ∈ Scan.indicators, ¬isDigit b = true := List.any_eq_false.1 (by decide)
  exact hnone a hmem ha

/-- A number or a word is told from all else by its first characters. -/
theorem head_of_isBare (h : IsBare t) :
    ∃ a u, t = a :: u ∧ (isInitial a = true ∨ a = '-' ∧ ∃ b v, u = b :: v ∧ isDigit b = true) := by
  rcases h with hword | hnumber
  · have hall : ∀ s ∈ words, ∃ a u, s = a :: u ∧ isInitial a = true := by
      simp only [words, List.mem_cons, List.not_mem_nil, or_false]
      rintro s (rfl | rfl | rfl) <;> exact ⟨_, _, rfl, by decide⟩
    obtain ⟨a, u, rfl, ha⟩ := hall t hword
    exact ⟨a, u, rfl, .inl ha⟩
  · obtain ⟨a, u, rfl, ha⟩ := head_of_isNumber hnumber
    exact ⟨a, u, rfl, ha.imp isInitial_of_isDigit id⟩

theorem plainRun_calm (hc : c.rest = t ++ r) (ht : ∀ a ∈ t, isCalm a = true) (text : List Char) :
    plainRun inFlow (t.length + n) ⟨text, [], [], [], false⟩ c =
      plainRun inFlow n ⟨t.reverse ++ text, [], [], [], false⟩ (c.skipMany t.length) := by
  induction t generalizing text c with
  | nil => simp [Cursor.skipMany]
  | cons a t ih =>
      obtain ⟨hgap, hbreak, hend, hcolon, -⟩ := isCalm_iff.1 (ht a List.mem_cons_self)
      rw [List.length_cons, Nat.succ_add, plainRun, hc]
      simp only [List.cons_append, hgap, hbreak, hend, hcolon, Bool.or_self, Bool.and_false, Bool.false_and, decide_false,
        Bool.false_eq_true, if_false]
      rw [Cursor.skipMany, show (Folding.close ⟨text, [], [], [], false⟩).push a = ⟨a :: text, [], [], [], false⟩ from rfl,
        ih (skip_rest hc) (fun b hb => ht b (List.mem_cons_of_mem a hb))]
      simp

/-- What follows an item of a list or a field, or the document. -/
def Closes (inFlow : Bool) (r : List Char) : Prop :=
  if inFlow then ∃ a u, r = a :: u ∧ (a = ',' ∨ a = ']' ∨ a = '}') else r = []

theorem isSpace_eq_false (hgap : isGap a = false) (hbreak : isBreak a = false) : isSpace a = false := by
  simp only [isGap, isBreak, Bool.or_eq_false_iff, decide_eq_false_iff_not] at hgap hbreak
  simp [isSpace, hgap, hbreak]

theorem skipLine_space (hc : c.rest = a :: u) (hbreak : isBreak a = true) (hspace : isSpace a = true) :
    skipSpace c.skipLine.2.rest = skipSpace c.rest ∧ c.line < c.skipLine.2.line ∧ c.skipLine.2.rest.length < c.rest.length := by
  rw [Cursor.skipLine, hc]
  split
  · next v heq =>
      cases heq
      exact ⟨rfl, Nat.lt_succ_self _, by simp only [List.length_cons]; omega⟩
  · next heq =>
      cases heq
      rw [if_pos hbreak]
      exact ⟨(skipSpace_cons hspace u).symm, Nat.lt_succ_self _, Nat.lt_succ_self _⟩
  · next heq => cases heq

theorem Closes.not_break (h : Closes inFlow (a :: u)) : isBreak a = false := by
  cases inFlow with
  | false => cases h
  | true =>
      obtain ⟨_, _, heq, ha⟩ := h
      cases heq
      rcases ha with rfl | rfl | rfl <;> decide

theorem isSpace_of_closes (h : Closes inFlow (skipSpace (a :: u))) (hbreak : isBreak a = true) : isSpace a = true := by
  by_contra hspace
  rw [Bool.not_eq_true] at hspace
  rw [skipSpace_solid hspace] at h
  simp [h.not_break] at hbreak

theorem skipGaps_closes {limit : Option Nat} (hc : Closes inFlow (skipSpace c.rest))
    (h : f.skipGaps limit n c = some (f', c')) : f'.text = f.text ∧ skipSpace c'.rest = skipSpace c.rest := by
  induction n generalizing f c with
  | zero =>
      cases h
      exact ⟨rfl, rfl⟩
  | succ n ih =>
      rw [Folding.skipGaps] at h
      split at h
      · cases h
        exact ⟨rfl, rfl⟩
      · next a u hrest =>
          split at h
          · next hgap =>
              have hspace : isSpace a = true := by
                simp only [isGap, Bool.or_eq_true, decide_eq_true_eq] at hgap
                rcases hgap with rfl | rfl <;> rfl
              have hskip : skipSpace c.skip.rest = skipSpace c.rest := by rw [skip_rest hrest, hrest, skipSpace_cons hspace]
              have hnext {g : Folding} (h : g.skipGaps limit n c.skip = some (f', c')) (hg : g.text = f.text) :
                  f'.text = f.text ∧ skipSpace c'.rest = skipSpace c.rest := by
                obtain ⟨htext, hto⟩ := ih (hskip ▸ hc) h
                exact ⟨htext.trans hg, hto.trans hskip⟩
              split at h
              · exact hnext h rfl
              · split at h
                · cases h
                · exact hnext h rfl
          · split at h
            · next hbreak =>
                obtain ⟨hskip, -, -⟩ := skipLine_space hrest hbreak (isSpace_of_closes (hrest ▸ hc) hbreak)
                have hnext {g : Folding} (h : g.skipGaps limit n c.skipLine.2 = some (f', c')) (hg : g.text = f.text) :
                    f'.text = f.text ∧ skipSpace c'.rest = skipSpace c.rest := by
                  obtain ⟨htext, hto⟩ := ih (hskip ▸ hc) h
                  exact ⟨htext.trans hg, hto.trans hskip⟩
                dsimp only at h
                split at h
                · exact hnext h rfl
                · exact hnext h rfl
            · cases h
              exact ⟨rfl, rfl⟩

theorem plainRun_closes {ended : Bool} (hc : Closes inFlow (skipSpace c.rest))
    (h : plainRun inFlow n f c = some (f', c', ended)) : f' = f ∧ c' = c := by
  cases n with
  | zero =>
      cases h
      exact ⟨rfl, rfl⟩
  | succ n =>
      rw [plainRun] at h
      split at h
      · cases h
        exact ⟨rfl, rfl⟩
      · next a u hrest =>
          split at h
          · cases h
            exact ⟨rfl, rfl⟩
          · next hblank =>
              rw [Bool.not_eq_true, Bool.or_eq_false_iff] at hblank
              rw [hrest, skipSpace_solid (isSpace_eq_false hblank.1 hblank.2)] at hc
              cases inFlow with
              | false => cases hc
              | true =>
                  obtain ⟨_, _, heq, ha⟩ := hc
                  cases heq
                  rcases ha with rfl | rfl | rfl <;> cases h <;> exact ⟨rfl, rfl⟩

theorem plainScalar_closes {indent : Nat} (hc : Closes inFlow (skipSpace c.rest))
    (h : plainScalar inFlow indent n f c = some (f', c')) : f'.text = f.text ∧ skipSpace c'.rest = skipSpace c.rest := by
  induction n generalizing f c with
  | zero =>
      cases h
      exact ⟨rfl, rfl⟩
  | succ n ih =>
      rw [plainScalar] at h
      split at h
      · cases h
        exact ⟨rfl, rfl⟩
      · simp only [Option.bind_eq_bind, Option.bind_eq_some_iff] at h
        obtain ⟨⟨f₁, c₁, ended⟩, hrun, h⟩ := h
        obtain ⟨rfl, rfl⟩ := plainRun_closes hc hrun
        dsimp only at h
        split at h
        · cases h
          exact ⟨rfl, rfl⟩
        · obtain ⟨⟨f₂, c₂⟩, hgaps, h⟩ := Option.bind_eq_some_iff.1 h
          obtain ⟨htext, hskip⟩ := skipGaps_closes hc hgaps
          dsimp only at h
          split at h
          · cases h
            exact ⟨htext, hskip⟩
          · obtain ⟨htext', hskip'⟩ := ih (hskip ▸ hc) h
            exact ⟨htext'.trans htext, hskip'.trans hskip⟩

/-- What stands bare is a scalar of its own text. -/
theorem plainScalar_bare {indent : Nat} (hc : c.rest = t ++ r) (ht : IsBare t) (hmark : c.atDocumentMark = false)
    (hr : Closes inFlow (skipSpace r)) (h : plainScalar inFlow indent (n + 1) .empty c = some (f', c')) :
    f'.text = t.reverse ∧ skipSpace c'.rest = skipSpace r := by
  have hcalm := calm_of_isBare ht
  have hrest : (c.skipMany t.length).rest = r := skipMany_rest hc
  have hsharp : c.seesChar '#' = false := by
    obtain ⟨a, u, rfl, -⟩ := head_of_isBare ht
    have hne : a ≠ '#' := (isCalm_iff.1 (hcalm a List.mem_cons_self)).2.2.2.2.1
    simp [Cursor.seesChar, Cursor.sees, hc, hne]
  rw [plainScalar, hmark, hsharp] at h
  simp only [Bool.or_self, Bool.false_eq_true, if_false, Option.bind_eq_bind, Option.bind_eq_some_iff] at h
  obtain ⟨⟨f₁, c₁, ended⟩, hrun, h⟩ := h
  rw [show c.rest.length + 1 = t.length + (r.length + 1) by rw [hc, List.length_append]; omega, Folding.empty,
    plainRun_calm hc hcalm] at hrun
  obtain ⟨rfl, rfl⟩ := plainRun_closes (hrest ▸ hr) hrun
  dsimp only at h
  split at h
  · cases h
    exact ⟨by simp, by rw [hrest]⟩
  · obtain ⟨⟨f₂, c₂⟩, hgaps, h⟩ := Option.bind_eq_some_iff.1 h
    obtain ⟨htext, hskip⟩ := skipGaps_closes (hrest ▸ hr) hgaps
    rw [hrest] at hskip
    dsimp only at h
    split at h
    · cases h
      exact ⟨by simp [htext], hskip⟩
    · obtain ⟨htext', hskip'⟩ := plainScalar_closes (hskip ▸ hr) h
      exact ⟨by simp [htext', htext], hskip'.trans hskip⟩

end SiteTree.Yaml
