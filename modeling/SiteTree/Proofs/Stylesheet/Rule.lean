import SiteTree.Proofs.EntryName.Loop
import SiteTree.Stylesheet

/-!
Import rules: what is read of one, and how a stylesheet is cut into rules and characters. A rule is read up to its
semicolon without a look at what comes after it, so that a text that holds a whole rule is read as one whatever is put
behind it.
-/

namespace SiteTree.Stylesheet

open Text
open EntryName (Ends ends_cons takeWhile_run dropWhile_run)

variable {s t x y u v reference : List Char} {c : Char} {r : Rule} {start : Bool} {ps ps' qs : List Piece} {n : Nat}

/-- What is left out behind the semicolon: the blanks of the line and its end. -/
def finish (s : List Char) : List Char := dropIf '\n' (dropIf '\r' (s.dropWhile isIndent))

/-- What comes behind the semicolon that ends a rule, right behind it. -/
def semicolon? (s : List Char) : Option (List Char) :=
  match (dropIf ')' (trimStart s)).dropWhile fun c => c ≠ ';' && c ≠ '\n' with
  | ';' :: r => some r
  | _ => none

/-- The reference of a rule, and what comes right behind the semicolon. -/
def body? (s : List Char) : Option (List Char × List Char) :=
  (reference? s).bind fun x => (semicolon? x.2).map fun u => (x.1, u)

def wrappedBody? (s : List Char) : Option (List Char × List Char) :=
  match dropStart? ['u', 'r', 'l', '('] s with
  | some r => (body? (trimStart r)).or (body? s)
  | none => body? s

def core? (s : List Char) : Option (List Char × List Char) :=
  (dropStart? ['@', 'i', 'm', 'p', 'o', 'r', 't'] (s.dropWhile isIndent)).bind fun r => (skipSome? r).bind wrappedBody?

theorem afterEnd?_eq (s : List Char) : afterEnd? s = (semicolon? s).map finish := by
  rw [afterEnd?, semicolon?]
  split <;> simp_all [finish]

theorem referenceAndEnd?_eq (s : List Char) : referenceAndEnd? s = (body? s).map fun x => (x.1, finish x.2) := by
  rw [referenceAndEnd?, body?]
  cases reference? s with
  | none => rfl
  | some x => cases hs : semicolon? x.2 <;> simp [afterEnd?_eq, hs]

theorem wrapped?_eq (s : List Char) : wrapped? s = (wrappedBody? s).map fun x => (x.1, finish x.2) := by
  rw [wrapped?, wrappedBody?]
  simp only [referenceAndEnd?_eq]
  cases dropStart? ['u', 'r', 'l', '('] s with
  | none => rfl
  | some r => cases hb : body? (trimStart r) <;> simp [hb]

theorem rule?_eq (s : List Char) : rule? s =
    (core? s).map fun x => (⟨x.1, s.take (s.length - (finish x.2).length)⟩, finish x.2) := by
  rw [rule?, core?]
  cases dropStart? ['@', 'i', 'm', 'p', 'o', 'r', 't'] (s.dropWhile isIndent) with
  | none => rfl
  | some r =>
      cases hs : skipSome? r with
      | none => simp [hs]
      | some t => cases hw : wrappedBody? t <;> simp [hs, wrapped?_eq, hw]

theorem ends_dropWhile (p : Char → Bool) (s : List Char) : Ends p (s.dropWhile p) := by
  intro c hc
  have hhead := List.head?_dropWhile_not p s
  rw [Option.mem_def.1 hc] at hhead
  simpa using hhead

theorem dropIf_suffix (c : Char) (s : List Char) : dropIf c s <:+ s := by
  cases s with
  | nil => exact List.suffix_rfl
  | cons d s =>
      rw [dropIf]
      split
      · exact List.suffix_cons d s
      · exact List.suffix_rfl

theorem finish_suffix (s : List Char) : finish s <:+ s :=
  ((dropIf_suffix _ _).trans (dropIf_suffix _ _)).trans (List.dropWhile_suffix _)

theorem semicolon?_suffix (h : semicolon? s = some u) : ';' :: u <:+ s := by
  rw [semicolon?] at h
  split at h
  · next r hr =>
    obtain rfl := Option.some.inj h
    exact (hr ▸ List.dropWhile_suffix _).trans ((dropIf_suffix _ _).trans (List.dropWhile_suffix _))
  · cases h

theorem quotedReference?_eq_some : quotedReference? c s = some (reference, t) ↔
    reference ≠ [] ∧ s = reference ++ c :: t ∧ c ∉ reference := by
  have hends : ∀ t : List Char, Ends (· ≠ c) (c :: t) := fun t => ends_cons (by simp) t
  rw [quotedReference?]
  constructor
  · intro h
    split at h
    · next a b d r htake hdrop =>
      obtain ⟨rfl, rfl⟩ := Prod.mk.inj (Option.some.inj h)
      have hs : s = (a :: b) ++ d :: r := by
        rw [← htake, ← hdrop]
        exact List.takeWhile_append_dropWhile.symm
      have hd : d = c := by simpa using (hdrop ▸ ends_dropWhile (· ≠ c) s : Ends (· ≠ c) (d :: r)) d rfl
      refine ⟨List.cons_ne_nil a b, hd ▸ hs, fun hmem => ?_⟩
      rw [← htake] at hmem
      simpa using List.mem_takeWhile_imp hmem
    · cases h
  · rintro ⟨hne, rfl, hc⟩
    have hall : ∀ d ∈ reference, decide (d ≠ c) = true := by
      intro d hd
      have hdc : d ≠ c := fun he => hc (he ▸ hd)
      simpa using hdc
    rw [takeWhile_run hall (hends t), dropWhile_run hall (hends t)]
    obtain ⟨d, reference, rfl⟩ := List.exists_cons_of_ne_nil hne
    rfl

/-- A reference stands between quotes of one kind, or is a run of characters that need none. -/
theorem reference?_eq_some : reference? s = some (reference, t) ↔ reference ≠ [] ∧
    ((∃ q, (q = '"' ∨ q = '\'') ∧ s = q :: (reference ++ q :: t) ∧ q ∉ reference) ∨
      s = reference ++ t ∧ (∀ c ∈ reference, inBare c = true) ∧ Ends inBare t) := by
  have hbare : ∀ q r, q = '"' ∨ q = '\'' → reference ≠ [] → q :: r = reference ++ t →
      (∀ c ∈ reference, inBare c = true) → False := by
    rintro q r hq hne hs hall
    obtain ⟨d, reference, rfl⟩ := List.exists_cons_of_ne_nil hne
    obtain ⟨rfl, -⟩ := List.cons.inj hs
    have hd := hall q List.mem_cons_self
    rcases hq with rfl | rfl <;> exact absurd hd (by decide)
  have hquoted : ∀ q r, q = '"' ∨ q = '\'' → (quotedReference? q r = some (reference, t) ↔ reference ≠ [] ∧
      ((∃ q', (q' = '"' ∨ q' = '\'') ∧ q :: r = q' :: (reference ++ q' :: t) ∧ q' ∉ reference) ∨
        q :: r = reference ++ t ∧ (∀ c ∈ reference, inBare c = true) ∧ Ends inBare t)) := by
    intro q r hq
    rw [quotedReference?_eq_some]
    constructor
    · rintro ⟨hne, rfl, hc⟩
      exact ⟨hne, .inl ⟨q, hq, rfl, hc⟩⟩
    · rintro ⟨hne, ⟨q', -, hs, hc⟩ | ⟨hs, hall, -⟩⟩
      · obtain ⟨rfl, rfl⟩ := List.cons.inj hs
        exact ⟨hne, rfl, hc⟩
      · exact (hbare q r hq hne hs hall).elim
  unfold reference?
  split
  · exact hquoted _ _ (.inl rfl)
  · exact hquoted _ _ (.inr rfl)
  · next hdouble hsingle =>
    dsimp only
    constructor
    · intro h
      split at h
      · cases h
      · next hne =>
        obtain ⟨rfl, rfl⟩ := Prod.mk.inj (Option.some.inj h)
        exact ⟨by simpa using hne, .inr ⟨List.takeWhile_append_dropWhile.symm, fun c hc => List.mem_takeWhile_imp hc,
          ends_dropWhile inBare s⟩⟩
    · rintro ⟨hne, ⟨q, rfl | rfl, rfl, -⟩ | ⟨rfl, hall, hends⟩⟩
      · exact absurd rfl (hdouble _)
      · exact absurd rfl (hsingle _)
      · rw [takeWhile_run hall hends, dropWhile_run hall hends, if_neg (by simpa using hne)]

theorem reference?_suffix (h : reference? s = some (reference, t)) : t <:+ s := by
  rcases (reference?_eq_some.1 h).2 with ⟨q, -, rfl, -⟩ | ⟨rfl, -⟩
  · exact ⟨q :: (reference ++ [q]), by simp⟩
  · exact List.suffix_append _ _

theorem body?_eq_some : body? s = some (reference, u) ↔
    ∃ t, reference? s = some (reference, t) ∧ semicolon? t = some u := by
  simp only [body?, Option.bind_eq_some_iff, Option.map_eq_some_iff, Prod.mk.injEq, Prod.exists]
  constructor
  · rintro ⟨ref, t, href, v, hv, rfl, rfl⟩
    exact ⟨t, href, hv⟩
  · rintro ⟨t, href, hu⟩
    exact ⟨reference, t, href, u, hu, rfl, rfl⟩

theorem body?_suffix (h : body? s = some (reference, u)) : ';' :: u <:+ s := by
  obtain ⟨t, href, hu⟩ := body?_eq_some.1 h
  exact (semicolon?_suffix hu).trans (reference?_suffix href)

theorem wrappedBody?_reads (h : wrappedBody? s = some (reference, u)) :
    ∃ t, t <:+ s ∧ body? t = some (reference, u) := by
  rw [wrappedBody?] at h
  split at h
  · next r hr =>
    rcases Option.or_eq_some_iff.1 h with h | ⟨-, h⟩
    · have hr' : r <:+ s := by
        rw [dropStart?_eq_some.1 hr]
        exact List.suffix_append _ _
      exact ⟨_, (List.dropWhile_suffix _).trans hr', h⟩
    · exact ⟨s, List.suffix_rfl, h⟩
  · exact ⟨s, List.suffix_rfl, h⟩

theorem skipSome?_suffix (h : skipSome? s = some t) : t <:+ s := by
  cases s with
  | nil => cases h
  | cons c s =>
      rw [skipSome?] at h
      split at h
      · obtain rfl := Option.some.inj h
        exact (List.dropWhile_suffix _).trans (List.suffix_cons c s)
      · cases h

theorem core?_eq_some : core? s = some (reference, u) ↔ ∃ t v,
    s.dropWhile isIndent = ['@', 'i', 'm', 'p', 'o', 'r', 't'] ++ t ∧ skipSome? t = some v ∧
      wrappedBody? v = some (reference, u) := by
  simp only [core?, Option.bind_eq_some_iff, dropStart?_eq_some]
  grind

theorem core?_reads (h : core? s = some (reference, u)) : ∃ t, t <:+ s ∧ body? t = some (reference, u) := by
  obtain ⟨t, v, ht, hv, hw⟩ := core?_eq_some.1 h
  obtain ⟨t', ht', hbody⟩ := wrappedBody?_reads hw
  have hs : t <:+ s := (ht ▸ List.suffix_append _ t).trans (List.dropWhile_suffix isIndent)
  exact ⟨t', ht'.trans ((skipSome?_suffix hv).trans hs), hbody⟩

theorem core?_suffix (h : core? s = some (reference, u)) : ';' :: u <:+ s := by
  obtain ⟨t, ht, hbody⟩ := core?_reads h
  exact (body?_suffix hbody).trans ht

section

variable {p : Char → Bool} {w : List Char}

theorem dropWhile_stop (hp : p ';' = false) (x u : List Char) :
    (x ++ ';' :: u).dropWhile p = x.dropWhile p ++ ';' :: u := by
  rw [List.dropWhile_append]
  split
  · next hnil =>
    rw [List.dropWhile_cons_of_neg (by rw [hp]; exact Bool.false_ne_true), List.isEmpty_iff.1 hnil, List.nil_append]
  · rfl

theorem dropIf_stop (hc : c ≠ ';') (x u : List Char) : dropIf c (x ++ ';' :: u) = dropIf c x ++ ';' :: u := by
  cases x with
  | nil => exact if_neg hc
  | cons d x =>
      rw [List.cons_append, dropIf, dropIf]
      split <;> rfl

theorem dropStart?_stop (hw : ';' ∉ w) (x u : List Char) :
    dropStart? w (x ++ ';' :: u) = (dropStart? w x).map (· ++ ';' :: u) := by
  induction w generalizing x with
  | nil => simp [dropStart?]
  | cons c w ih =>
      obtain ⟨hc, hw⟩ : c ≠ ';' ∧ ';' ∉ w := by simpa [eq_comm] using hw
      cases x with
      | nil => simp [dropStart?, hc]
      | cons d x =>
          rw [List.cons_append, dropStart?, dropStart?, ih hw]
          split <;> rfl

end

theorem skipSome?_stop (x u : List Char) : skipSome? (x ++ ';' :: u) = (skipSome? x).map (· ++ ';' :: u) := by
  cases x with
  | nil => rfl
  | cons c x =>
      rw [List.cons_append, skipSome?, skipSome?, trimStart, trimStart, dropWhile_stop (by decide)]
      split <;> rfl

theorem reference?_stop (h : reference? (x ++ ';' :: u) = some (reference, t ++ ';' :: u)) (v : List Char) :
    reference? (x ++ ';' :: v) = some (reference, t ++ ';' :: v) := by
  obtain ⟨hne, ⟨q, hq, hs, hmem⟩ | ⟨hs, hall, hends⟩⟩ := reference?_eq_some.1 h
  · have hx : x = q :: (reference ++ q :: t) := List.append_cancel_right (hs.trans (by simp))
    exact reference?_eq_some.2 ⟨hne, .inl ⟨q, hq, by rw [hx]; simp, hmem⟩⟩
  · have hx : x = reference ++ t := List.append_cancel_right (hs.trans (List.append_assoc _ _ _).symm)
    refine reference?_eq_some.2 ⟨hne, .inr ⟨by rw [hx, List.append_assoc], hall, ?_⟩⟩
    cases t with
    | nil => exact ends_cons (by decide) v
    | cons d t => exact hends

theorem semicolon?_stop (h : semicolon? (x ++ ';' :: u) = some u) (v : List Char) :
    semicolon? (x ++ ';' :: v) = some v := by
  rw [semicolon?, trimStart, dropWhile_stop (by decide), dropIf_stop (by decide), dropWhile_stop (by decide)] at h ⊢
  cases hx : (dropIf ')' (x.dropWhile isBlank)).dropWhile fun c => c ≠ ';' && c ≠ '\n' with
  | nil => rfl
  | cons d y =>
      rw [hx, List.cons_append] at h
      split at h
      · next r hr =>
        obtain rfl := Option.some.inj h
        have hlen := congrArg List.length hr
        simp only [List.length_cons, List.length_append] at hlen
        omega
      · cases h

theorem suffix_stop (h : ';' :: u <:+ t) (hs : t <:+ x ++ ';' :: u) : ∃ y, t = y ++ ';' :: u ∧ y <:+ x := by
  obtain ⟨y, rfl⟩ := h
  obtain ⟨z, hz⟩ := hs
  exact ⟨y, rfl, z, List.append_cancel_right (by rw [← hz, List.append_assoc])⟩

theorem body?_stop (h : body? (x ++ ';' :: u) = some (reference, u)) (v : List Char) :
    body? (x ++ ';' :: v) = some (reference, v) := by
  obtain ⟨t, href, hu⟩ := body?_eq_some.1 h
  obtain ⟨y, rfl, -⟩ := suffix_stop (semicolon?_suffix hu) (reference?_suffix href)
  exact body?_eq_some.2 ⟨_, reference?_stop href v, semicolon?_stop hu v⟩

/-- What is not well wrapped is not remote: it is read up to the parenthesis. -/
theorem isRemote_unwrapped (hnone : body? (trimStart x ++ ';' :: u) = none)
    (h : body? (['u', 'r', 'l', '('] ++ x ++ ';' :: u) = some (reference, u)) : isRemote reference = false := by
  obtain ⟨t, href, hu⟩ := body?_eq_some.1 h
  obtain ⟨hne, ⟨q, rfl | rfl, hs, -⟩ | ⟨hs, hall, hends⟩⟩ := reference?_eq_some.1 href
  · exact absurd (List.cons.inj hs).1 (by decide)
  · exact absurd (List.cons.inj hs).1 (by decide)
  have hbare : ∀ c ∈ ['u', 'r', 'l', '('] ++ (x ++ ';' :: u).takeWhile inBare, inBare c = true := by
    intro c hc
    rcases List.mem_append.1 hc with hc | hc
    · exact List.all_eq_true.1 (show ['u', 'r', 'l', '('].all inBare = true by decide) c hc
    · exact List.mem_takeWhile_imp hc
  have hrest := ends_dropWhile inBare (x ++ ';' :: u)
  obtain ⟨rfl, rfl⟩ := EntryName.run_inj hall hends hbare hrest (by
    rw [← hs, List.append_assoc, List.append_assoc, List.takeWhile_append_dropWhile])
  by_cases hnil : (x ++ ';' :: u).takeWhile inBare = []
  · rw [hnil]
    decide
  · exfalso
    have hread : reference? (x ++ ';' :: u) = some (_, (x ++ ';' :: u).dropWhile inBare) :=
      reference?_eq_some.2 ⟨hnil, .inr ⟨List.takeWhile_append_dropWhile.symm, fun c hc => List.mem_takeWhile_imp hc,
        hrest⟩⟩
    have htrim : trimStart x = x := by
      cases x with
      | nil => rfl
      | cons d x =>
          refine List.dropWhile_cons_of_neg fun hblank => hnil ?_
          rw [List.cons_append, List.takeWhile_cons_of_neg]
          simp [inBare, hblank]
    rw [htrim, body?_eq_some.2 ⟨_, hread, hu⟩] at hnone
    cases hnone

theorem wrappedBody?_stop (h : wrappedBody? (x ++ ';' :: u) = some (reference, u)) (v : List Char) :
    (wrappedBody? (x ++ ';' :: v)).isSome ∧
      (isRemote reference = true → wrappedBody? (x ++ ';' :: v) = some (reference, v)) := by
  have hstart : ∀ u, dropStart? ['u', 'r', 'l', '('] (x ++ ';' :: u) = _ := dropStart?_stop (by decide) x
  rw [wrappedBody?, hstart] at h ⊢
  cases hx : dropStart? ['u', 'r', 'l', '('] x with
  | none =>
      rw [hx] at h
      have hv := body?_stop h v
      exact ⟨by rw [Option.map_none]; exact Option.isSome_of_eq_some hv, fun _ => hv⟩
  | some r =>
      rw [hx] at h
      obtain rfl := dropStart?_eq_some.1 hx
      simp only [Option.map_some, trimStart, dropWhile_stop (p := isBlank) (by decide)] at h ⊢
      rcases Option.or_eq_some_iff.1 h with h | ⟨hnone, h⟩
      · rw [body?_stop h v]
        exact ⟨rfl, fun _ => rfl⟩
      · rw [body?_stop h v]
        refine ⟨by simp, fun hremote => ?_⟩
        rw [isRemote_unwrapped hnone h] at hremote
        cases hremote

theorem core?_stop (h : core? (x ++ ';' :: u) = some (reference, u)) (v : List Char) :
    (core? (x ++ ';' :: v)).isSome ∧ (isRemote reference = true → core? (x ++ ';' :: v) = some (reference, v)) := by
  rw [core?, dropWhile_stop (by decide), dropStart?_stop (by decide)] at h ⊢
  cases hx : dropStart? ['@', 'i', 'm', 'p', 'o', 'r', 't'] (x.dropWhile isIndent) with
  | none =>
      rw [hx] at h
      cases h
  | some y =>
      rw [hx, Option.map_some, Option.bind_some, skipSome?_stop] at h
      rw [Option.map_some, Option.bind_some, skipSome?_stop]
      cases hy : skipSome? y with
      | none =>
          rw [hy] at h
          cases h
      | some z =>
          rw [hy] at h
          exact wrappedBody?_stop h v

/-- The end of the line behind a rule, and what may follow it. -/
inductive Ending : List Char → List Char → Prop
  | none {z} (h : Ends (fun c => isIndent c || c = '\r' || c = '\n') z) : Ending [] z
  | carriage {z} (h : Ends (· = '\n') z) : Ending ['\r'] z
  | newline {z} : Ending ['\n'] z
  | both {z} : Ending ['\r', '\n'] z

/-- What is dropped is an indentation and an end of line, if there are any. -/
theorem ending_finish (s : List Char) :
    ∃ i e, s = i ++ (e ++ finish s) ∧ (∀ c ∈ i, isIndent c = true) ∧ Ending e (finish s) := by
  have hindent := ends_dropWhile isIndent s
  refine ⟨s.takeWhile isIndent, ?_⟩
  suffices h : ∃ e, s.dropWhile isIndent = e ++ finish s ∧ Ending e (finish s) by
    obtain ⟨e, hs, he⟩ := h
    exact ⟨e, by rw [← hs, List.takeWhile_append_dropWhile], fun c hc => List.mem_takeWhile_imp hc, he⟩
  rw [finish]
  generalize s.dropWhile isIndent = y at hindent
  cases y with
  | nil => exact ⟨[], rfl, .none (by simp [dropIf, Ends])⟩
  | cons c y =>
      by_cases hr : c = '\r'
      · subst hr
        rw [dropIf, if_pos rfl]
        cases y with
        | nil => exact ⟨['\r'], rfl, .carriage (by simp [dropIf, Ends])⟩
        | cons d y =>
            rw [dropIf]
            split
            · next hd => exact ⟨['\r', '\n'], by rw [← hd]; rfl, .both⟩
            · next hd => exact ⟨['\r'], rfl, .carriage (ends_cons (by simpa [eq_comm] using hd) y)⟩
      · rw [dropIf, if_neg (Ne.symm hr), dropIf]
        split
        · next hc => exact ⟨['\n'], by rw [← hc]; rfl, .newline⟩
        · next hc =>
          have hi : isIndent c = false := hindent c rfl
          exact ⟨[], rfl, .none (ends_cons (by simp [hi, hr, Ne.symm hc]) y)⟩

theorem finish_of_ending {i e : List Char} (hi : ∀ c ∈ i, isIndent c = true) (he : Ending e t) :
    finish (i ++ (e ++ t)) = t := by
  have hdrop : (i ++ (e ++ t)).dropWhile isIndent = e ++ t := by
    refine dropWhile_run hi ?_
    cases he with
    | none h =>
        intro c hc
        have hc' := h c hc
        simp only [Bool.or_eq_false_iff] at hc'
        exact hc'.1.1
    | carriage | newline | both => exact ends_cons (by decide) _
  rw [finish, hdrop]
  cases he with
  | none h =>
      cases t with
      | nil => rfl
      | cons c t =>
          have hc := h c rfl
          simp only [Bool.or_eq_false_iff, decide_eq_false_iff_not] at hc
          rw [List.nil_append, dropIf, if_neg (Ne.symm hc.1.2), dropIf, if_neg (Ne.symm hc.2)]
  | carriage h =>
      cases t with
      | nil => rfl
      | cons c t =>
          have hc := h c rfl
          rw [decide_eq_false_iff_not] at hc
          exact if_neg (Ne.symm hc)
  | newline | both => rfl

theorem finish_eq_iff : finish s = t ↔ ∃ i e, s = i ++ (e ++ t) ∧ (∀ c ∈ i, isIndent c = true) ∧ Ending e t := by
  constructor
  · rintro rfl
    exact ending_finish s
  · rintro ⟨i, e, rfl, hi, he⟩
    exact finish_of_ending hi he

section

variable {g z : List Char}

theorem finish_append (h : finish (g ++ z) = z) : ∃ i e, g = i ++ e ∧ (∀ c ∈ i, isIndent c = true) ∧ Ending e z := by
  obtain ⟨i, e, hs, hi, he⟩ := finish_eq_iff.1 h
  exact ⟨i, e, List.append_cancel_right (hs.trans (List.append_assoc _ _ _).symm), hi, he⟩

theorem finish_line (h : finish (g ++ z) = z) (hg : g.getLast? = some '\n') (y : List Char) : finish (g ++ y) = y := by
  obtain ⟨i, e, rfl, hi, he⟩ := finish_append h
  refine finish_eq_iff.2 ⟨i, e, List.append_assoc _ _ _, hi, ?_⟩
  cases he with
  | none =>
      rw [List.append_nil] at hg
      exact absurd (hi _ (List.mem_of_getLast? hg)) (by decide)
  | carriage => simp at hg
  | newline => exact .newline
  | both => exact .both

theorem finish_head (h : finish (g ++ c :: z) = c :: z) (y : List Char) : finish (g ++ c :: y) = c :: y := by
  obtain ⟨i, e, rfl, hi, he⟩ := finish_append h
  refine finish_eq_iff.2 ⟨i, e, List.append_assoc _ _ _, hi, ?_⟩
  cases he with
  | none h => exact .none (ends_cons (h c rfl) y)
  | carriage h => exact .carriage (ends_cons (h c rfl) y)
  | newline => exact .newline
  | both => exact .both

theorem finish_newline (h : finish (g ++ z) = z) (hg : g.getLast? ≠ some '\n') (y : List Char) :
    finish (g ++ '\n' :: y) = y := by
  obtain ⟨i, e, rfl, hi, he⟩ := finish_append h
  cases he with
  | none => exact finish_eq_iff.2 ⟨i, ['\n'], by simp, hi, .newline⟩
  | carriage => exact finish_eq_iff.2 ⟨i, ['\r', '\n'], by simp, hi, .both⟩
  | newline | both => simp at hg

theorem rule?_eq_some : rule? s = some (r, z) ↔
    s = r.text ++ z ∧ ∃ x g, r.text = x ++ ';' :: g ∧ finish (g ++ z) = z ∧ core? s = some (r.reference, g ++ z) := by
  rw [rule?_eq, Option.map_eq_some_iff]
  constructor
  · rintro ⟨⟨reference, u⟩, hcore, heq⟩
    obtain ⟨rfl, rfl⟩ := Prod.mk.inj heq
    obtain ⟨x, hx⟩ := core?_suffix hcore
    obtain ⟨g, hg⟩ := finish_suffix u
    have hs : s = (x ++ ';' :: g) ++ finish u := by
      rw [← hx, List.append_assoc, List.cons_append, hg]
    have htake : s.take (s.length - (finish u).length) = x ++ ';' :: g := by
      rw [hs, List.length_append, Nat.add_sub_cancel, List.take_left]
    dsimp only
    rw [htake]
    exact ⟨hs, x, g, rfl, by rw [hg], by rw [hg]; exact hcore⟩
  · rintro ⟨hs, x, g, htext, hfinish, hcore⟩
    refine ⟨_, hcore, ?_⟩
    have htake : s.take (s.length - (finish (g ++ z)).length) = r.text := by
      rw [hfinish, hs, List.length_append, Nat.add_sub_cancel, List.take_left]
    dsimp only
    rw [htake, hfinish]

theorem rule?_eq_append (h : rule? s = some (r, z)) : s = r.text ++ z := (rule?_eq_some.1 h).1

theorem text_ne_nil (h : rule? s = some (r, z)) : r.text ≠ [] := by
  obtain ⟨-, x, g, htext, -⟩ := rule?_eq_some.1 h
  rw [htext]
  simp

theorem reference_ne_nil (h : rule? s = some (r, z)) : r.reference ≠ [] := by
  obtain ⟨-, x, g, -, -, hcore⟩ := rule?_eq_some.1 h
  obtain ⟨y, -, hbody⟩ := core?_reads hcore
  obtain ⟨t, href, -⟩ := body?_eq_some.1 hbody
  exact (reference?_eq_some.1 href).1

theorem core?_text (htext : r.text = x ++ ';' :: g) (h : core? (r.text ++ z) = some (reference, g ++ z))
    (y : List Char) :
    (core? (r.text ++ y)).isSome ∧ (isRemote reference = true → core? (r.text ++ y) = some (reference, g ++ y)) := by
  rw [htext, List.append_assoc, List.cons_append] at h ⊢
  exact core?_stop h (g ++ y)

/-- The text of a rule is read as a rule whatever comes behind it. -/
theorem rule?_isSome (h : rule? s = some (r, z)) (y : List Char) : (rule? (r.text ++ y)).isSome := by
  obtain ⟨rfl, x, g, htext, -, hcore⟩ := rule?_eq_some.1 h
  rw [rule?_eq, Option.isSome_map]
  exact (core?_text htext hcore y).1

/-- The text of a remote rule is read as the same rule, but that more of its line may be left out. -/
theorem rule?_remote (h : rule? s = some (r, z)) (hremote : isRemote r.reference = true) : ∃ x g,
    r.text = x ++ ';' :: g ∧ finish (g ++ z) = z ∧ ∀ e y, finish (g ++ (e ++ y)) = y →
      rule? (r.text ++ (e ++ y)) = some (⟨r.reference, r.text ++ e⟩, y) := by
  obtain ⟨rfl, x, g, htext, hfinish, hcore⟩ := rule?_eq_some.1 h
  refine ⟨x, g, htext, hfinish, fun e y hy => rule?_eq_some.2 ⟨(List.append_assoc _ _ _).symm, x, g ++ e, ?_, ?_, ?_⟩⟩
  · rw [htext, List.append_assoc, List.cons_append]
  · rw [List.append_assoc, hy]
  · rw [List.append_assoc]
    exact (core?_text htext hcore (e ++ y)).2 hremote

theorem rule?_same {r' : Rule} {z' : List Char} (h : rule? s = some (r, z)) (hremote : isRemote r.reference = true)
    (h' : rule? (r.text ++ y) = some (r', z')) : r'.reference = r.reference := by
  obtain ⟨rfl, x, g, htext, -, hcore⟩ := rule?_eq_some.1 h
  obtain ⟨-, x', g', -, -, hcore'⟩ := rule?_eq_some.1 h'
  rw [(core?_text htext hcore y).2 hremote] at hcore'
  exact (Prod.mk.inj (Option.some.inj hcore')).1.symm

theorem getLast?_text (htext : r.text = x ++ ';' :: g) : r.text.getLast? = some '\n' ↔ g.getLast? = some '\n' := by
  rw [htext]
  cases g with
  | nil => simp
  | cons c g => simp [List.getLast?_append]

theorem rule?_line (h : rule? s = some (r, z)) (hremote : isRemote r.reference = true)
    (hline : r.text.getLast? = some '\n') (y : List Char) : rule? (r.text ++ y) = some (r, y) := by
  obtain ⟨x, g, htext, hfinish, hread⟩ := rule?_remote h hremote
  simpa using hread [] y (finish_line hfinish ((getLast?_text htext).1 hline) y)

theorem rule?_head (h : rule? s = some (r, c :: z)) (hremote : isRemote r.reference = true) (y : List Char) :
    rule? (r.text ++ c :: y) = some (r, c :: y) := by
  obtain ⟨x, g, htext, hfinish, hread⟩ := rule?_remote h hremote
  simpa using hread [] (c :: y) (finish_head hfinish y)

theorem rule?_newline (h : rule? s = some (r, z)) (hremote : isRemote r.reference = true)
    (hline : r.text.getLast? ≠ some '\n') (y : List Char) :
    rule? (r.text ++ '\n' :: y) = some (⟨r.reference, r.text ++ ['\n']⟩, y) := by
  obtain ⟨x, g, htext, hfinish, hread⟩ := rule?_remote h hremote
  exact hread ['\n'] y (finish_newline hfinish (mt (getLast?_text htext).2 hline) y)

end

/-- Whether a text that comes after this one starts a line. -/
def endsLine (s : List Char) : Bool := s.getLast? = some '\n'

/-- Whether a line starts behind a text, of which the first character starts one or not. -/
def startsAfter (start : Bool) (s : List Char) : Bool := if s.isEmpty then start else endsLine s

@[simp] theorem startsAfter_nil (start : Bool) : startsAfter start [] = start := rfl

theorem startsAfter_of_ne_nil (hs : s ≠ []) (start : Bool) : startsAfter start s = endsLine s := by
  cases s with
  | nil => exact absurd rfl hs
  | cons c s => rfl

theorem startsAfter_append (start : Bool) (s t : List Char) :
    startsAfter start (s ++ t) = startsAfter (startsAfter start s) t := by
  cases t with
  | nil => rw [List.append_nil, startsAfter_nil]
  | cons c t =>
      rw [startsAfter_of_ne_nil (by simp), startsAfter_of_ne_nil (by simp), endsLine, endsLine, List.getLast?_append]
      simp

theorem startsAfter_cons (start : Bool) (c : Char) (s : List Char) :
    startsAfter start (c :: s) = startsAfter (c = '\n') s := by
  have hone : startsAfter start [c] = decide (c = '\n') := by simp [startsAfter, endsLine]
  rw [← hone, ← startsAfter_append, List.singleton_append]

/-- The text that pieces were cut from. -/
def Piece.chars : Piece → List Char
  | .char c => [c]
  | .rule r => r.text

def written (ps : List Piece) : List Char := ps.flatMap Piece.chars

@[simp] theorem written_nil : written [] = [] := rfl

@[simp] theorem written_cons (p : Piece) (ps : List Piece) : written (p :: ps) = p.chars ++ written ps := rfl

/-- A text, of which the first character starts a line or not, cut into pieces: a rule is read wherever one stands at
the start of a line. -/
inductive Cuts : Bool → List Char → List Piece → Prop
  | nil {start : Bool} : Cuts start [] []
  | char {start : Bool} {c : Char} {s : List Char} {ps : List Piece} (hnone : start = true → rule? (c :: s) = none)
      (hrest : Cuts (c = '\n') s ps) :
      Cuts start (c :: s) (.char c :: ps)
  | rule {r : Rule} {s : List Char} {ps : List Piece} (hrule : rule? (r.text ++ s) = some (r, s))
      (hrest : Cuts (endsLine r.text) s ps) :
      Cuts true (r.text ++ s) (.rule r :: ps)

theorem cuts_piecesFrom (start : Bool) (s : List Char) (n : Nat) (hn : s.length ≤ n) :
    Cuts start s (piecesFrom n start s) := by
  induction n generalizing start s with
  | zero =>
      obtain rfl := List.eq_nil_of_length_eq_zero (Nat.le_zero.1 hn)
      exact .nil
  | succ n ih =>
      cases s with
      | nil => exact .nil
      | cons c s =>
          rw [piecesFrom]
          split
          · next r rest hr =>
            cases start with
            | false => cases hr
            | true =>
                rw [if_pos rfl] at hr
                have hs := rule?_eq_append hr
                have hlen := congrArg List.length hs
                have hpos := List.length_pos_iff.2 (text_ne_nil hr)
                rw [List.length_append] at hlen
                rw [hs] at hr ⊢
                exact .rule hr (ih _ rest (by omega))
          · next hnone =>
            refine .char (fun hstart => ?_) (ih _ s (Nat.le_of_succ_le_succ hn))
            rwa [hstart, if_pos rfl] at hnone

theorem cuts_pieces (s : List Char) : Cuts true s (pieces s) := cuts_piecesFrom true s s.length (Nat.le_refl _)

theorem Cuts.unique (h : Cuts start s ps) (h' : Cuts start s ps') : ps = ps' := by
  induction h generalizing ps' with
  | nil =>
      generalize hs : ([] : List Char) = s at h'
      cases h' with
      | nil => rfl
      | char => cases hs
      | rule hrule => exact absurd (List.append_eq_nil_iff.1 hs.symm).1 (text_ne_nil hrule)
  | @char start c s ps hnone _ ih =>
      generalize hs : c :: s = s' at h'
      cases h' with
      | nil => cases hs
      | char _ hrest =>
          obtain ⟨rfl, rfl⟩ := List.cons.inj hs
          rw [ih hrest]
      | rule hrule =>
          rw [hs, hrule] at hnone
          cases hnone rfl
  | @rule r s ps hrule _ ih =>
      generalize hs : r.text ++ s = s' at h'
      cases h' with
      | nil => exact absurd (List.append_eq_nil_iff.1 hs).1 (text_ne_nil hrule)
      | char hnone =>
          rw [← hs, hrule] at hnone
          cases hnone rfl
      | rule hrule' hrest =>
          rw [hs, hrule'] at hrule
          obtain ⟨rfl, rfl⟩ := Prod.mk.inj (Option.some.inj hrule)
          rw [ih hrest]

theorem Cuts.written_eq (h : Cuts start s ps) : written ps = s := by
  induction h with
  | nil => rfl
  | char _ _ ih => rw [written_cons, ih]; rfl
  | rule _ _ ih => rw [written_cons, ih]; rfl

theorem written_pieces (s : List Char) : written (pieces s) = s := (cuts_pieces s).written_eq

theorem Cuts.read (h : Cuts start s ps) (hr : .rule r ∈ ps) : ∃ z, rule? (r.text ++ z) = some (r, z) := by
  induction h with
  | nil => cases hr
  | char _ _ ih => exact ih (by simpa using hr)
  | rule hrule _ ih =>
      rcases List.mem_cons.1 hr with heq | hr
      · cases heq
        exact ⟨_, hrule⟩
      · exact ih hr

/-- A rule stands at the start of a line. -/
theorem Cuts.rule_start (h : Cuts start s ps) (hps : ps = ps' ++ .rule r :: qs) :
    startsAfter start (written ps') = true ∧ rule? (r.text ++ written qs) = some (r, written qs) := by
  induction h generalizing ps' with
  | nil => simp at hps
  | @char start c s ps _ _ ih =>
      cases ps' with
      | nil => cases (List.cons.inj hps).1
      | cons p ps' =>
          obtain ⟨rfl, htail⟩ := List.cons.inj hps
          obtain ⟨hstart, hread⟩ := ih htail
          exact ⟨(startsAfter_cons start c _).trans hstart, hread⟩
  | @rule r' s ps hrule hrest ih =>
      cases ps' with
      | nil =>
          obtain ⟨heq, rfl⟩ := List.cons.inj hps
          cases heq
          rw [hrest.written_eq]
          exact ⟨rfl, hrule⟩
      | cons p ps' =>
          obtain ⟨rfl, htail⟩ := List.cons.inj hps
          obtain ⟨hstart, hread⟩ := ih htail
          refine ⟨(startsAfter_append true r'.text _).trans ?_, hread⟩
          rwa [startsAfter_of_ne_nil (text_ne_nil hrule)]

end SiteTree.Stylesheet
