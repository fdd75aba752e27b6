import Mathlib.Data.List.TakeWhile
import SiteTree.EntryName

/-!
The tokens of a name. No two of them overlap, and a name is cut at each of them. A name may be cut in
two where no token goes over the cut.
-/

namespace SiteTree.EntryName

open Text

variable {c : Char} {s u r a b x pre post : List Char} {ps : List Piece}

/-- Between the brackets of a token there is something, and no other bracket. -/
def IsBody (x : List Char) : Prop := x ≠ [] ∧ '[' ∉ x ∧ ']' ∉ x

/-- A token of the text, with what stands before and after it. -/
def HasToken (s pre x post : List Char) : Prop := s = pre ++ '[' :: (x ++ ']' :: post) ∧ IsBody x

theorem isBody_iff : IsBody x ↔ x ≠ [] ∧ ∀ c ∈ x, inToken c = true := by
  have hone : ∀ c : Char, inToken c = true ↔ c ≠ '[' ∧ c ≠ ']' := fun c => by simp [inToken]
  rw [IsBody]
  apply and_congr_right
  intro _
  constructor
  · rintro ⟨hopen, hclose⟩ c hc
    exact (hone c).2 ⟨fun h => hopen (h ▸ hc), fun h => hclose (h ▸ hc)⟩
  · intro h
    exact ⟨fun hc => ((hone _).1 (h _ hc)).1 rfl, fun hc => ((hone _).1 (h _ hc)).2 rfl⟩

theorem tokenBody?_append (hne : u ≠ []) (hu : ∀ c ∈ u, inToken c = true) (r : List Char) :
    tokenBody? (u ++ ']' :: r) = some (u, r) := by
  obtain ⟨c, v, rfl⟩ := List.exists_cons_of_ne_nil hne
  have htake : (']' :: r).takeWhile inToken = [] := List.takeWhile_cons_of_neg (by decide)
  have hdrop : (']' :: r).dropWhile inToken = ']' :: r := List.dropWhile_cons_of_neg (by decide)
  rw [tokenBody?, List.takeWhile_append_of_pos hu, List.dropWhile_append_of_pos hu, htake, hdrop, List.append_nil]
  rfl

theorem tokenBody?_iff : tokenBody? s = some (x, post) ↔ s = x ++ ']' :: post ∧ IsBody x := by
  rw [isBody_iff]
  constructor
  · intro h
    obtain ⟨hs, hne, hall⟩ := tokenBody?_eq_some h
    exact ⟨hs, hne, List.all_eq_true.1 hall⟩
  · rintro ⟨rfl, hne, hall⟩
    exact tokenBody?_append hne hall post

/-- A token opens with the first character, or stands behind it. -/
theorem hasToken_cons : HasToken (c :: s) pre x post ↔ (pre = [] ∧ c = '[' ∧ tokenBody? s = some (x, post)) ∨
    ∃ pre', pre = c :: pre' ∧ HasToken s pre' x post := by
  rw [tokenBody?_iff]
  constructor
  · rintro ⟨hs, hx⟩
    cases pre with
    | nil =>
        obtain ⟨rfl, rfl⟩ := List.cons.inj hs
        exact .inl ⟨rfl, rfl, rfl, hx⟩
    | cons d pre' =>
        obtain ⟨rfl, rfl⟩ := List.cons.inj hs
        exact .inr ⟨pre', rfl, rfl, hx⟩
  · rintro (⟨rfl, rfl, rfl, hx⟩ | ⟨pre', rfl, rfl, hx⟩)
    · exact ⟨rfl, hx⟩
    · exact ⟨rfl, hx⟩

/-- Where no bracket opens no token does. -/
theorem hasToken_append (hu : '[' ∉ u) :
    HasToken (u ++ s) pre x post ↔ ∃ pre', pre = u ++ pre' ∧ HasToken s pre' x post := by
  induction u generalizing pre with
  | nil => simp
  | cons c u ih =>
      have hc : c ≠ '[' := fun h => hu (h ▸ List.mem_cons_self)
      have hu' : '[' ∉ u := fun h => hu (List.mem_cons_of_mem c h)
      rw [List.cons_append, hasToken_cons]
      simp only [hc, false_and, and_false, false_or, ih hu', List.cons_append]
      constructor
      · rintro ⟨_, rfl, pre', rfl, h⟩
        exact ⟨pre', rfl, h⟩
      · rintro ⟨pre', rfl, h⟩
        exact ⟨_, rfl, pre', rfl, h⟩

/-- Behind a token the text goes on as if it started there. -/
theorem hasToken_behind (h : IsBody u) : HasToken (u ++ ']' :: s) pre x post ↔
    ∃ pre', pre = u ++ ']' :: pre' ∧ HasToken s pre' x post := by
  have hopen : '[' ∉ u ++ [']'] := by simp [h.2.1]
  have hcut : HasToken (u ++ [']'] ++ s) pre x post ↔ _ := hasToken_append hopen
  simpa only [List.append_assoc, List.singleton_append] using hcut

/-- Two tokens of a text are the same or do not overlap: one ends before the other starts. -/
theorem HasToken.apart {pre' x' post' : List Char} (h : HasToken s pre x post) (h' : HasToken s pre' x' post')
    (hle : pre.length ≤ pre'.length) :
    (pre = pre' ∧ x = x' ∧ post = post') ∨ pre.length + x.length + 2 ≤ pre'.length := by
  obtain ⟨rfl, hx⟩ := h
  obtain ⟨hs, hx'⟩ := h'
  obtain ⟨tail, rfl, htail⟩ : ∃ tail, pre' = pre ++ tail ∧
      '[' :: (x ++ ']' :: post) = tail ++ '[' :: (x' ++ ']' :: post') := by
    rcases List.append_eq_append_iff.1 hs with ⟨tail, rfl, htail⟩ | ⟨tail, rfl, htail⟩
    · exact ⟨tail, rfl, htail⟩
    · have hnil : tail = [] := List.length_eq_zero_iff.1 (by rw [List.length_append] at hle; omega)
      subst hnil
      exact ⟨[], by simp, htail.symm⟩
  rcases hasToken_cons.1 ⟨htail, hx'⟩ with ⟨rfl, -, hbody⟩ | ⟨tail', rfl, hin⟩
  · rw [tokenBody?_iff.2 ⟨rfl, hx⟩] at hbody
    obtain ⟨rfl, rfl⟩ := Prod.mk.inj (Option.some.inj hbody)
    exact .inl ⟨by simp, rfl, rfl⟩
  · obtain ⟨pre'', rfl, -⟩ := (hasToken_behind hx).1 hin
    refine .inr ?_
    simp only [List.length_append, List.length_cons]
    omega

theorem flatMap_chars_pieces (s : List Char) : (pieces s).flatMap Piece.chars = s := by
  fun_induction pieces s with
  | case1 => rfl
  | case2 r body rest hbody ih =>
      obtain ⟨rfl, -⟩ := tokenBody?_iff.1 hbody
      rw [List.flatMap_cons, ih]
      simp [Piece.chars]
  | case3 r hbody ih | case4 c r hc ih =>
      rw [List.flatMap_cons, ih]
      rfl

/-- The token is among the pieces, between those that spell what stands before and after it. -/
def Among (ps : List Piece) (pre x post : List Char) : Prop :=
  ∃ before after, ps = before ++ .token x :: after ∧ pre = before.flatMap Piece.chars ∧ post = after.flatMap Piece.chars

theorem not_among_nil : ¬ Among [] pre x post := by
  rintro ⟨before, after, hps, -⟩
  simp at hps

theorem among_char : Among (.char c :: ps) pre x post ↔ ∃ pre', pre = c :: pre' ∧ Among ps pre' x post := by
  constructor
  · rintro ⟨before, after, hps, rfl, rfl⟩
    cases before with
    | nil => cases (List.cons.inj hps).1
    | cons p before =>
        obtain ⟨rfl, rfl⟩ := List.cons.inj hps
        exact ⟨_, rfl, before, after, rfl, rfl, rfl⟩
  · rintro ⟨_, rfl, before, after, rfl, rfl, rfl⟩
    exact ⟨.char c :: before, after, rfl, rfl, rfl⟩

theorem among_token : Among (.token u :: ps) pre x post ↔ (pre = [] ∧ u = x ∧ ps.flatMap Piece.chars = post) ∨
    ∃ pre', pre = '[' :: (u ++ ']' :: pre') ∧ Among ps pre' x post := by
  have hchars : ∀ before : List Piece, (Piece.token u :: before).flatMap Piece.chars =
      '[' :: (u ++ ']' :: before.flatMap Piece.chars) := fun before => by simp [Piece.chars]
  constructor
  · rintro ⟨before, after, hps, rfl, rfl⟩
    cases before with
    | nil =>
        obtain ⟨he, rfl⟩ := List.cons.inj hps
        exact .inl ⟨rfl, Piece.token.inj he, rfl⟩
    | cons p before =>
        obtain ⟨rfl, rfl⟩ := List.cons.inj hps
        exact .inr ⟨_, hchars before, before, after, rfl, rfl, rfl⟩
  · rintro (⟨rfl, rfl, rfl⟩ | ⟨_, rfl, before, after, rfl, rfl, rfl⟩)
    · exact ⟨[], ps, rfl, rfl, rfl⟩
    · exact ⟨.token u :: before, after, rfl, (hchars before).symm, rfl⟩

/-- A name is cut at just the tokens that stand in it. -/
theorem hasToken_iff : HasToken s pre x post ↔ Among (pieces s) pre x post := by
  fun_induction pieces s generalizing pre with
  | case1 =>
      refine iff_of_false ?_ not_among_nil
      rintro ⟨hs, -⟩
      simp at hs
  | case2 r body rest hbody ih =>
      obtain ⟨rfl, hx⟩ := tokenBody?_iff.1 hbody
      rw [hasToken_cons, hbody, among_token, flatMap_chars_pieces]
      apply or_congr
      · simp
      · constructor
        · rintro ⟨_, rfl, hin⟩
          obtain ⟨pre', rfl, hrest⟩ := (hasToken_behind hx).1 hin
          exact ⟨pre', rfl, ih.1 hrest⟩
        · rintro ⟨pre', rfl, hin⟩
          exact ⟨_, rfl, (hasToken_behind hx).2 ⟨pre', rfl, ih.2 hin⟩⟩
  | case3 r hbody ih | case4 c r hc ih =>
      rw [hasToken_cons, among_char]
      simp [*]

theorem any_isToken : (pieces s).any Piece.isToken = true ↔ ∃ pre x post, HasToken s pre x post := by
  simp only [hasToken_iff]
  constructor
  · intro h
    obtain ⟨p, hp, htoken⟩ := List.any_eq_true.1 h
    obtain ⟨before, after, hps⟩ := List.append_of_mem hp
    cases p with
    | char c => cases htoken
    | token x => exact ⟨_, x, _, before, after, hps, rfl, rfl⟩
  · rintro ⟨_, x, _, before, after, hps, -⟩
    rw [hps]
    simp [Piece.isToken]

theorem pieces_token (h : tokenBody? r = some (x, post)) : pieces ('[' :: r) = .token x :: pieces post := by
  rw [pieces, if_pos rfl]
  split
  · next body rest hbody =>
    rw [h] at hbody
    cases hbody
    rfl
  · next hnone =>
    rw [h] at hnone
    cases hnone

theorem pieces_char (h : c = '[' → tokenBody? r = none) : pieces (c :: r) = .char c :: pieces r := by
  rw [pieces]
  split
  · next hc =>
    split
    · next body rest hbody =>
      rw [h hc] at hbody
      cases hbody
    · rfl
  · rfl

/-- No token starts in the first of two texts and ends in the second. -/
def NoneAcross (a b : List Char) : Prop := ∀ pre x post, HasToken (a ++ b) pre x post → pre.length < a.length →
  pre.length + x.length + 2 ≤ a.length

theorem NoneAcross.tail (h : NoneAcross (u ++ a) b) : NoneAcross a b := by
  intro pre x post ⟨htext, hx⟩ hlt
  have hlong := h (u ++ pre) x post ⟨by rw [List.append_assoc, htext, List.append_assoc], hx⟩
  simp only [List.length_append] at hlong
  omega

/-- Where no token goes over the cut, the two parts of a name are read apart. -/
theorem pieces_append (h : NoneAcross a b) : pieces (a ++ b) = pieces a ++ pieces b := by
  fun_induction pieces a with
  | case1 => rfl
  | case2 r body rest hbody ih =>
      obtain ⟨rfl, hx⟩ := tokenBody?_iff.1 hbody
      have hrest : NoneAcross rest b := by
        have he : '[' :: (body ++ ']' :: rest) = ('[' :: body ++ [']']) ++ rest := by simp
        rw [he] at h
        exact h.tail
      have hlong : tokenBody? (body ++ ']' :: rest ++ b) = some (body, rest ++ b) :=
        tokenBody?_iff.2 ⟨by simp, hx⟩
      rw [List.cons_append, pieces_token hlong, ih hrest]
      rfl
  | case3 r hnone ih =>
      have hlong : tokenBody? (r ++ b) = none := by
        rw [Option.eq_none_iff_forall_ne_some]
        rintro ⟨x, post⟩ hsome
        obtain ⟨he, hx⟩ := tokenBody?_iff.1 hsome
        have hlen := h [] x post ⟨by rw [List.cons_append, he]; rfl, hx⟩ (by simp)
        -- the token ends in the first text, so it was there without the second
        rcases List.append_eq_append_iff.1 he with ⟨tail, rfl, -⟩ | ⟨tail, rfl, htail⟩
        · simp only [List.length_nil, List.length_cons, List.length_append] at hlen
          omega
        · cases tail with
          | nil => simp at hlen
          | cons d tail =>
              obtain ⟨rfl, -⟩ := List.cons.inj htail
              rw [tokenBody?_iff.2 ⟨rfl, hx⟩] at hnone
              cases hnone
      rw [List.cons_append, pieces_char fun _ => hlong, ih (h.tail (u := ['[']))]
      rfl
  | case4 c r hc ih =>
      rw [List.cons_append, pieces_char fun he => absurd he hc, ih (h.tail (u := [c]))]
      rfl

end SiteTree.EntryName
