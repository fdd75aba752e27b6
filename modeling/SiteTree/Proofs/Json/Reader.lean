import SiteTree.Proofs.Json.Grammar

/-!
The reader against the grammar. It may refuse a document, for what it says or for its depth; if it does not, it has
read all of it, and the answer is made up of what its parts denote.
-/

namespace SiteTree.Json

open Number

/-- What the parts of a document denote. Nothing is said of the value of a number. -/
inductive Denotes : Part → Json → Prop
  | null : Denotes (.value (.bare ['n', 'u', 'l', 'l'])) .null
  | yes : Denotes (.value (.bare ['t', 'r', 'u', 'e'])) (.bool true)
  | no : Denotes (.value (.bare ['f', 'a', 'l', 's', 'e'])) (.bool false)
  | number {t j} (ht : IsNumber t) : Denotes (.value (.bare t)) j
  | quoted {body u} (hsaid : saying? body = some u) : Denotes (.value (.quoted body)) (.text u)
  | list {l j} (hl : Denotes (.items l) j) : Denotes (.value (.list l)) j
  | object {l j} (hl : Denotes (.fields l) j) : Denotes (.value (.object l)) j
  | item {d j} (hd : Denotes (.value d) j) : Denotes (.item d) j
  | noItems : Denotes (.items []) (.list [])
  | items {d j l js} (hd : Denotes (.item d) j) (hl : Denotes (.items l) (.list js)) : Denotes (.items (d :: l)) (.list (j :: js))
  | noFields : Denotes (.fields []) (.object [])
  | fields {key d name j l js} (hsaid : saying? key = some name) (hd : Denotes (.item d) j) (hl : Denotes (.fields l) (.object js)) :
      Denotes (.fields ((key, d) :: l)) (.object ((name, j) :: js))

variable {s t u v r r' : List Char} {a : Char} {j : Json} {k : Kept} {negative : Bool}

/-- Nothing that a number could go on with. -/
def Stops (r : List Char) : Prop := ∀ a ∈ r.head?, isDigit a = false ∧ a ≠ '.' ∧ a ≠ 'e' ∧ a ≠ 'E'

theorem takeWhile_digits (hs : ∀ c ∈ s, isDigit c = true) (hr : ∀ a ∈ r.head?, isDigit a = false) :
    (s ++ r).takeWhile isDigit = s ∧ (s ++ r).dropWhile isDigit = r := by
  rw [List.takeWhile_append_of_pos hs, List.dropWhile_append_of_pos hs]
  cases r with
  | nil => simp
  | cons a r => simp [hr a rfl]

theorem readExponent?_rest (hexponent : IsExponent t) (hr : Stops r) (h : readExponent? negative k (t ++ r) = some (j, r')) :
    r' = r := by
  rcases hexponent with rfl | ⟨e, sign, digits, rfl, he, hsign, hne, hdigits⟩
  · cases r with
    | nil =>
        simp only [List.append_nil, readExponent?, Option.map_eq_some_iff] at h
        obtain ⟨f, -, heq⟩ := h
        cases heq
        rfl
    | cons a r =>
        obtain ⟨-, -, he, hE⟩ := hr a rfl
        simp only [List.nil_append, readExponent?, he, hE, decide_false, Bool.or_self, Bool.false_eq_true, if_false,
          Option.map_eq_some_iff] at h
        obtain ⟨f, -, heq⟩ := h
        cases heq
        rfl
  · have hmark : (decide (e = 'e') || decide (e = 'E')) = true := by simpa using he
    obtain ⟨b, w, rfl⟩ := List.exists_cons_of_ne_nil hne
    obtain ⟨htake, hdrop⟩ := takeWhile_digits hdigits fun a ha => (hr a ha).1
    have hb : b ≠ '+' ∧ b ≠ '-' :=
      ⟨ne_of_isDigit (hdigits b List.mem_cons_self) (by decide), ne_of_isDigit (hdigits b List.mem_cons_self) (by decide)⟩
    obtain ⟨below, hbelow⟩ : ∃ below, readExponent? negative k (e :: (sign ++ (b :: w)) ++ r) =
        (applyExponent? k below (b :: w)).map fun f => (.real (signed negative f), r) := by
      simp only [List.mem_cons, List.not_mem_nil, or_false] at hsign
      rcases hsign with rfl | rfl | rfl
      · refine ⟨false, ?_⟩
        rw [List.nil_append, List.cons_append, readExponent?, if_pos hmark]
        · simp only [htake, hdrop]
          rfl
        · exact fun _ heq => hb.1 (List.cons.inj heq).1
        · exact fun _ heq => hb.2 (List.cons.inj heq).1
      · refine ⟨false, ?_⟩
        rw [List.cons_append, List.singleton_append, List.cons_append, readExponent?, if_pos hmark]
        simp only [htake, hdrop]
        rfl
      · refine ⟨true, ?_⟩
        rw [List.cons_append, List.singleton_append, List.cons_append, readExponent?, if_pos hmark]
        simp only [htake, hdrop]
        rfl
    rw [hbelow, Option.map_eq_some_iff] at h
    obtain ⟨f, -, heq⟩ := h
    cases heq
    rfl

theorem head_exponent (hexponent : IsExponent t) (hr : Stops r) : ∀ a ∈ (t ++ r).head?, isDigit a = false ∧ a ≠ '.' := by
  rcases hexponent with rfl | ⟨e, sign, digits, rfl, he, -⟩
  · exact fun a ha => ⟨(hr a ha).1, (hr a ha).2.1⟩
  · rintro _ ⟨⟩
    simp only [List.mem_cons, List.not_mem_nil, or_false] at he
    rcases he with rfl | rfl <;> exact ⟨rfl, by decide⟩

theorem head_fraction (hfraction : IsFraction u) (hexponent : IsExponent t) (hr : Stops r) :
    ∀ a ∈ (u ++ (t ++ r)).head?, isDigit a = false := by
  rcases hfraction with rfl | ⟨digits, rfl, -⟩
  · exact fun a ha => (head_exponent hexponent hr a ha).1
  · rintro _ ⟨⟩
    rfl

theorem readFraction?_rest (hfraction : IsFraction u) (hexponent : IsExponent t) (hr : Stops r)
    (h : readFraction? negative k (u ++ (t ++ r)) = some (j, r')) : r' = r := by
  rcases hfraction with rfl | ⟨digits, rfl, hne, hdigits⟩
  · rw [List.nil_append, readFraction?] at h
    · exact readExponent?_rest hexponent hr h
    · exact fun v hv => (head_exponent hexponent hr '.' (by rw [hv]; rfl)).2 rfl
  · obtain ⟨htake, hdrop⟩ := takeWhile_digits hdigits fun a ha => (head_exponent hexponent hr a ha).1
    rw [List.cons_append, readFraction?] at h
    simp only [htake, hdrop, Option.ite_none_left_eq_some] at h
    exact readExponent?_rest hexponent hr h.2

/-- Without a fraction or an exponent the number ends with its whole part. -/
theorem append_eq_of_not_startsFraction (hfraction : IsFraction u) (hexponent : IsExponent t)
    (h : startsFraction (u ++ (t ++ r)) = false) : u ++ (t ++ r) = r := by
  rcases hfraction with rfl | ⟨digits, rfl, -⟩
  · rcases hexponent with rfl | ⟨e, sign, digits, rfl, he, -⟩
    · rfl
    · have hmarks : ∀ e ∈ ['e', 'E'], (e = '.' || e = 'e' || e = 'E') = true := List.all_eq_true.1 (by decide)
      exact absurd h (by rw [List.nil_append, List.cons_append, startsFraction, hmarks e he]; decide)
  · cases h

theorem readUnsigned?_rest (hwhole : IsWhole s) (hfraction : IsFraction u) (hexponent : IsExponent t) (hr : Stops r)
    (h : readUnsigned? negative (s ++ (u ++ (t ++ r))) = some (j, r')) : r' = r := by
  have hdigits : ∀ c ∈ s, isDigit c = true := by
    rcases hwhole with rfl | ⟨hs, -⟩
    · exact List.all_eq_true.1 (by decide)
    · exact hs.2
  obtain ⟨htake, hdrop⟩ := takeWhile_digits hdigits (head_fraction hfraction hexponent hr)
  rw [readUnsigned?] at h
  simp only [htake, hdrop] at h
  split at h
  · cases h
  · cases h
  · split at h
    · split at h
      · exact readFraction?_rest hfraction hexponent hr h
      · next hstart =>
          rw [append_eq_of_not_startsFraction hfraction hexponent (by simpa using hstart)] at h
          split at h <;> cases h <;> rfl
    · exact readFraction?_rest hfraction hexponent hr h

theorem readNumber?_rest (ht : IsNumber t) (hr : Stops r) (h : readNumber? (t ++ r) = some (j, r')) : r' = r := by
  obtain ⟨sign, whole, fraction, exponent, rfl, hsign, hwhole, hfraction, hexponent⟩ := ht
  simp only [List.append_assoc] at h
  simp only [List.mem_cons, List.not_mem_nil, or_false] at hsign
  rcases hsign with rfl | rfl
  · rw [List.nil_append, readNumber?] at h
    · exact readUnsigned?_rest hwhole hfraction hexponent hr h
    · obtain ⟨a, w, rfl, ha⟩ := head_of_isWhole hwhole
      exact fun _ heq => ne_of_isDigit ha (by decide) (List.cons.inj heq).1
  · exact readUnsigned?_rest hwhole hfraction hexponent hr h

/-- What the body of a string says, character by character. Half characters say nothing, whole ones in two halves are
left out too. -/
inductive Says : List Char → List Char → Prop
  | nil : Says [] []
  | char {c s t} (hquote : c ≠ '"') (hescape : c ≠ '\\') (hc : 32 ≤ c.toNat) (hs : Says s t) : Says (c :: s) (c :: t)
  | short {c d s t} (hc : (c, d) ∈ shortEscapes) (hs : Says s t) : Says ('\\' :: c :: s) (d :: t)
  | unit {a b c d n s t} (hn : readHex? [a, b, c, d] = some (n, [])) (hwhole : n < 0xD800 ∨ 0xDFFF < n) (hs : Says s t) :
      Says ('\\' :: 'u' :: a :: b :: c :: d :: s) (Char.ofNat n :: t)

variable {b c d : Char} {n : Nat}

theorem readHex?_append (h : readHex? [a, b, c, d] = some (n, [])) (r : List Char) :
    readHex? (a :: b :: c :: d :: r) = some (n, r) := by
  simp only [readHex?, Option.bind_eq_bind, Option.bind_eq_some_iff, Option.some.injEq, Prod.mk.injEq] at h ⊢
  obtain ⟨i, hi, j, hj, k, hk, l, hl, hn, -⟩ := h
  exact ⟨i, hi, j, hj, k, hk, l, hl, hn, trivial⟩

theorem readEscape?_short (h : (c, d) ∈ shortEscapes) (r : List Char) : readEscape? (c :: r) = some (d, r) := by
  simp only [shortEscapes, List.mem_cons, Prod.mk.injEq, List.not_mem_nil, or_false] at h
  rcases h with ⟨rfl, rfl⟩ | ⟨rfl, rfl⟩ | ⟨rfl, rfl⟩ | ⟨rfl, rfl⟩ | ⟨rfl, rfl⟩ | ⟨rfl, rfl⟩ | ⟨rfl, rfl⟩ | ⟨rfl, rfl⟩ <;> rfl

theorem Says.readQuoted? (h : Says s t) {fuel : Nat} (hfuel : s.length < fuel) (before r : List Char) :
    Json.readQuoted? fuel before (s ++ '"' :: r) = some (String.ofList (before.reverse ++ t), r) := by
  induction h generalizing fuel before with
  | nil =>
      obtain ⟨fuel, rfl⟩ := Nat.exists_eq_add_of_lt hfuel
      simp [Json.readQuoted?]
  | @char c s t hquote hescape hc hs ih =>
      obtain ⟨fuel, rfl⟩ := Nat.exists_eq_add_of_lt hfuel
      rw [List.cons_append, Json.readQuoted?, if_neg hquote, if_neg hescape, if_neg (Nat.not_lt.2 hc), ih (by simp; omega)]
      simp
  | @short c d s t hc hs ih =>
      obtain ⟨fuel, rfl⟩ := Nat.exists_eq_add_of_lt hfuel
      rw [List.cons_append, List.cons_append, Json.readQuoted?, if_neg (by decide), if_pos rfl, readEscape?_short hc]
      dsimp only
      rw [ih (by simp; omega)]
      simp
  | @unit a b c d n s t hn hwhole hs ih =>
      obtain ⟨fuel, rfl⟩ := Nat.exists_eq_add_of_lt hfuel
      have hunit : readUnit? (a :: b :: c :: d :: (s ++ '"' :: r)) = some (Char.ofNat n, s ++ '"' :: r) := by
        rw [readUnit?, readHex?_append hn]
        simp only [Option.bind_eq_bind, Option.bind_some]
        rw [if_neg (by simp; omega), if_neg (by simp; omega)]
      rw [List.cons_append, Json.readQuoted?, if_neg (by decide), if_pos rfl]
      simp only [List.cons_append, readEscape?, hunit]
      rw [ih (by simp; omega)]
      simp

theorem Says.saying? (h : Says s t) : saying? s = some (String.ofList t) := by
  rw [Json.saying?, readString?, h.readQuoted? (by rw [List.length_append]; omega)]
  rfl

theorem readHex?_isHex (ha : IsHex a) (hb : IsHex b) (hc : IsHex c) (hd : IsHex d) :
    ∃ n, readHex? [a, b, c, d] = some (n, []) := by
  obtain ⟨i, hi⟩ := Option.isSome_iff_exists.1 ha
  obtain ⟨j, hj⟩ := Option.isSome_iff_exists.1 hb
  obtain ⟨k, hk⟩ := Option.isSome_iff_exists.1 hc
  obtain ⟨l, hl⟩ := Option.isSome_iff_exists.1 hd
  exact ⟨_, by simp [readHex?, hi, hj, hk, hl]; rfl⟩

/-- A numbered escape says nothing, or one character, and then the string goes on, whatever follows it. -/
theorem readUnit?_body (ha : IsHex a) (hb : IsHex b) (hc : IsHex c) (hd : IsHex d) (hs : IsBody s) :
    (∀ r, readUnit? (a :: b :: c :: d :: (s ++ '"' :: r)) = none) ∨ ∃ e s', IsBody s' ∧ s'.length ≤ s.length ∧
      ∀ r, readUnit? (a :: b :: c :: d :: (s ++ '"' :: r)) = some (e, s' ++ '"' :: r) := by
  obtain ⟨n, hn⟩ := readHex?_isHex ha hb hc hd
  have hread := readHex?_append hn
  cases hlow : decide (0xDC00 ≤ n) && decide (n ≤ 0xDFFF) with
  | true => exact .inl fun r => by simp only [readUnit?, hread, Option.bind_eq_bind, Option.bind_some, hlow, if_true]
  | false =>
      cases hhigh : decide (0xD800 ≤ n) && decide (n ≤ 0xDBFF) with
      | false =>
          refine .inr ⟨Char.ofNat n, s, hs, le_rfl, fun r => ?_⟩
          simp only [readUnit?, hread, Option.bind_eq_bind, Option.bind_some, hlow, hhigh, Bool.false_eq_true, if_false]
      | true =>
          cases hs with
          | nil =>
              refine .inl fun r => ?_
              simp only [readUnit?, hread, Option.bind_eq_bind, Option.bind_some, hlow, hhigh, Bool.false_eq_true, if_false, if_true]
              rfl
          | char hquote hescape =>
              refine .inl fun r => ?_
              simp only [readUnit?, hread, Option.bind_eq_bind, Option.bind_some, hlow, hhigh, Bool.false_eq_true, if_false, if_true]
              split
              · next heq => exact absurd (List.cons.inj heq).1 hescape
              · rfl
          | @short e _ v he =>
              have hall : ∀ p ∈ shortEscapes, p.1 ≠ 'u' := by decide
              refine .inl fun r => ?_
              simp only [readUnit?, hread, Option.bind_eq_bind, Option.bind_some, hlow, hhigh, Bool.false_eq_true, if_false, if_true]
              split
              · next heq => exact absurd (List.cons.inj (List.cons.inj heq).2).1 (hall _ he)
              · rfl
          | @unit a' b' c' d' v ha' hb' hc' hd' hv =>
              obtain ⟨m, hm⟩ := readHex?_isHex ha' hb' hc' hd'
              have hread' := readHex?_append hm
              cases htrail : decide (0xDC00 ≤ m) && decide (m ≤ 0xDFFF) with
              | false =>
                  refine .inl fun r => ?_
                  simp only [readUnit?, hread, hread', List.cons_append, Option.bind_eq_bind, Option.bind_some, hlow, hhigh, htrail,
                    Bool.false_eq_true, if_false, if_true]
              | true =>
                  refine .inr ⟨Char.ofNat (0x10000 + (n - 0xD800) * 0x400 + (m - 0xDC00)), v, hv, by simp; omega, fun r => ?_⟩
                  simp only [readUnit?, hread, hread', List.cons_append, Option.bind_eq_bind, Option.bind_some, hlow, hhigh, htrail,
                    Bool.false_eq_true, if_false, if_true]

/-- An escape in a string says nothing, or one character. -/
theorem readEscape?_body (hs : IsBody ('\\' :: s)) : (∀ r, readEscape? (s ++ '"' :: r) = none) ∨
    ∃ e s', IsBody s' ∧ s'.length < s.length ∧ ∀ r, readEscape? (s ++ '"' :: r) = some (e, s' ++ '"' :: r) := by
  cases hs with
  | char _ hescape => exact absurd rfl hescape
  | @short c d v hc hv => exact .inr ⟨d, v, hv, Nat.lt_succ_self _, fun r => readEscape?_short hc _⟩
  | @unit a b c d v ha hb hc hd hv =>
      refine (readUnit?_body ha hb hc hd hv).imp (fun hnone r => hnone r) fun ⟨e, s', hs', hlength, hread⟩ => ?_
      exact ⟨e, s', hs', by simp only [List.length_cons]; omega, hread⟩

/-- A string is read up to its closing quote, with enough fuel and whatever follows it. -/
theorem readQuoted?_append (hs : IsBody s) {f f' : Nat} (hf : s.length < f) (hf' : s.length < f') (before r : List Char) :
    readQuoted? f before (s ++ '"' :: r) = (readQuoted? f' before (s ++ ['"'])).map fun p => (p.1, r) := by
  induction hm : s.length using Nat.strong_induction_on generalizing s f f' before with
  | h m ih =>
      obtain ⟨f, rfl⟩ := Nat.exists_eq_add_of_lt hf
      obtain ⟨f', rfl⟩ := Nat.exists_eq_add_of_lt hf'
      cases s with
      | nil => rfl
      | cons c v =>
          by_cases hescape : c = '\\'
          · subst hescape
            rw [List.cons_append, List.cons_append, readQuoted?, if_neg (by decide), if_pos rfl, readQuoted?, if_neg (by decide),
              if_pos rfl]
            rcases readEscape?_body hs with hnone | ⟨e, v', hv', hlength, hread⟩
            · rw [hnone, hnone]
              rfl
            · rw [hread, hread]
              exact ih v'.length (by simp at hm; omega) hv' (by simp; omega) (by simp; omega) _ rfl
          · cases hs with
            | char hquote _ hc hv =>
                rw [List.cons_append, List.cons_append, readQuoted?, if_neg hquote, if_neg hescape, if_neg (Nat.not_lt.2 hc),
                  readQuoted?, if_neg hquote, if_neg hescape, if_neg (Nat.not_lt.2 hc)]
                exact ih v.length (by rw [← hm]; exact Nat.lt_succ_self _) hv (by simp; omega) (by simp; omega) _ rfl
            | short => exact absurd rfl hescape
            | unit => exact absurd rfl hescape

theorem readString?_append (hs : IsBody s) (r : List Char) :
    readString? (s ++ '"' :: r) = (saying? s).map fun u => (u, r) := by
  have hlength (v : List Char) : s.length < (s ++ v).length + 1 := by
    rw [List.length_append]
    omega
  rw [saying?, readString?, readString?, readQuoted?_append hs (hlength _) (hlength ['"']), Option.map_map]
  rfl

variable {depth : Nat}

theorem readValue?_quoted (s : List Char) :
    readValue? depth ('"' :: s) = (readString? s).map fun p => (.text p.1, p.2) := by
  rw [readValue?.eq_def]
  rfl

theorem readValue?_list (s : List Char) : readValue? (depth + 1) ('[' :: s) = (match skipSpace s with
    | ']' :: r => some (.list [], r)
    | r => readItems? (readValue? depth) (r.length + 1) [] r) := by
  rw [readValue?.eq_def]
  rfl

theorem readValue?_object (s : List Char) : readValue? (depth + 1) ('{' :: s) = (match skipSpace s with
    | '}' :: r => some (.object [], r)
    | r => readFields? (readValue? depth) (r.length + 1) [] r) := by
  rw [readValue?.eq_def]
  rfl

theorem readValue?_bare (ht : IsBare t) (hr : Stops r) (h : readValue? depth (t ++ r) = some (j, r')) :
    r' = r ∧ Denotes (.value (.bare t)) j := by
  rcases ht with hword | hnumber
  · simp only [words, List.mem_cons, List.not_mem_nil, or_false] at hword
    rw [readValue?.eq_def] at h
    rcases hword with rfl | rfl | rfl
    · cases h
      exact ⟨rfl, .null⟩
    · cases h
      exact ⟨rfl, .yes⟩
    · cases h
      exact ⟨rfl, .no⟩
  · obtain ⟨a, u, rfl, ha⟩ := head_of_isNumber hnumber
    have hne (b : Char) (hdigit : isDigit b = false) (hsign : b ≠ '-') : a ≠ b := by
      rintro rfl
      rcases ha with ha | ⟨rfl, -⟩
      · simp [hdigit] at ha
      · exact hsign rfl
    have hread : readValue? depth (a :: u ++ r) = readNumber? (a :: u ++ r) := by
      rw [readValue?.eq_def]
      simp only [List.cons_append]
      rw [if_neg (hne _ (by decide) (by decide)), if_neg (hne _ (by decide) (by decide)), if_neg (hne _ (by decide) (by decide)),
        if_neg (hne _ (by decide) (by decide)), if_neg (hne _ (by decide) (by decide)), if_neg (hne _ (by decide) (by decide))]
    exact ⟨readNumber?_rest hnumber hr (hread ▸ h), .number hnumber⟩

theorem stops_cons (ha : isDigit a = false ∧ a ≠ '.' ∧ a ≠ 'e' ∧ a ≠ 'E') (r : List Char) : Stops (a :: r) := by
  rintro _ ⟨⟩
  exact ha

theorem stops_gap (h : Gap s r) (hr : Stops r) : Stops s := by
  obtain ⟨g, rfl, hg⟩ := h
  cases g with
  | nil => exact hr
  | cons a g =>
      have ha := hg a List.mem_cons_self
      simp only [isSpace, Bool.or_eq_true, decide_eq_true_eq] at ha
      rcases ha with ((rfl | rfl) | rfl) | rfl <;> exact stops_cons (by decide) _

/-- A value begins right here, and closes nothing. -/
theorem head_of_value {e : Written} (h : Spells (.value e) s r) :
    ∃ a u, s = a :: u ∧ isSpace a = false ∧ a ≠ ']' ∧ a ≠ '}' := by
  cases h with
  | bare ht =>
      rcases ht with hword | hnumber
      · simp only [words, List.mem_cons, List.not_mem_nil, or_false] at hword
        rcases hword with rfl | rfl | rfl <;> exact ⟨_, _, rfl, by decide⟩
      · obtain ⟨a, u, rfl, ha⟩ := head_of_isNumber hnumber
        refine ⟨a, _, rfl, ?_⟩
        rcases ha with ha | ⟨rfl, -⟩
        · have hne (b : Char) (hb : isDigit b = false) : a ≠ b := ne_of_isDigit ha hb
          refine ⟨?_, hne _ (by decide), hne _ (by decide)⟩
          simp [isSpace, hne ' ' (by decide), hne '\n' (by decide), hne '\t' (by decide), hne '\r' (by decide)]
        · decide
  | quoted => exact ⟨_, _, rfl, by decide⟩
  | list => exact ⟨_, _, rfl, by decide⟩
  | object => exact ⟨_, _, rfl, by decide⟩

theorem head_of_item {e : Written} (h : Spells (.item e) s r) : ∃ a u, skipSpace s = a :: u ∧ a ≠ ']' ∧ a ≠ '}' := by
  cases h with
  | item hbefore hvalue =>
      obtain ⟨a, u, rfl, hspace, hclose⟩ := head_of_value hvalue
      exact ⟨a, u, (skipSpace_gap hbefore).trans (skipSpace_solid hspace u), hclose⟩

theorem items_start {l : List Written} (h : Spells (.items l) s r) :
    l = [] ∧ Gap s r ∨ l ≠ [] ∧ ∃ a u, skipSpace s = a :: u ∧ a ≠ ']' := by
  cases h with
  | noItems hgap => exact .inl ⟨rfl, hgap⟩
  | lastItem hd =>
      obtain ⟨a, u, hs, ha, -⟩ := head_of_item hd
      exact .inr ⟨by simp, a, u, hs, ha⟩
  | items hd =>
      obtain ⟨a, u, hs, ha, -⟩ := head_of_item hd
      exact .inr ⟨by simp, a, u, hs, ha⟩

theorem fields_start {l : List (List Char × Written)} (h : Spells (.fields l) s r) :
    l = [] ∧ Gap s r ∨ l ≠ [] ∧ ∃ u, skipSpace s = '"' :: u := by
  have hfield {key : List Char} {e : Written} {r : List Char} (h : Spells (.field key e) s r) : ∃ u, skipSpace s = '"' :: u := by
    cases h with
    | field hbefore => exact ⟨_, (skipSpace_gap hbefore).trans (skipSpace_solid rfl _)⟩
  cases h with
  | noFields hgap => exact .inl ⟨rfl, hgap⟩
  | lastField hd => exact .inr ⟨by simp, hfield hd⟩
  | fields hd => exact .inr ⟨by simp, hfield hd⟩

/-- How the reader takes a part: it may refuse, but if it does not, it has come to the end of the part. -/
def ReadsAs (s r : List Char) : Part → Prop
  | .value e => ∀ depth j r', Stops r → readValue? depth s = some (j, r') → r' = r ∧ Denotes (.value e) j
  | .item e => ∀ depth j r', Stops r → readValue? depth (skipSpace s) = some (j, r') →
      skipSpace r' = skipSpace r ∧ Denotes (.item e) j
  | .items l => l ≠ [] → ∀ depth fuel before j r₁ r', r = ']' :: r₁ →
      readItems? (readValue? depth) fuel before (skipSpace s) = some (j, r') →
        r' = r₁ ∧ ∃ js, j = .list (before.reverse ++ js) ∧ Denotes (.items l) (.list js)
  | .field key e => ∀ depth fuel before j r', Stops r →
      readFields? (readValue? depth) fuel before (skipSpace s) = some (j, r') →
        ∃ n name value, saying? key = some name ∧ Denotes (.item e) value ∧
          (∀ r₁, skipSpace r = '}' :: r₁ → j = .object ((name, value) :: before).reverse ∧ r' = r₁) ∧
          ∀ r₁, skipSpace r = ',' :: r₁ →
            readFields? (readValue? depth) n ((name, value) :: before) (skipSpace r₁) = some (j, r')
  | .fields l => l ≠ [] → ∀ depth fuel before j r₁ r', r = '}' :: r₁ →
      readFields? (readValue? depth) fuel before (skipSpace s) = some (j, r') →
        r' = r₁ ∧ ∃ js, j = .object (before.reverse ++ js) ∧ Denotes (.fields l) (.object js)

/-- An item of a list, and what the list goes on with. -/
theorem readItems?_item {e : Written} {fuel : Nat} {before : List Json} (h : ReadsAs s r (.item e)) (hr : Stops r)
    (hread : readItems? (readValue? depth) fuel before (skipSpace s) = some (j, r')) :
    ∃ n value, Denotes (.item e) value ∧
      (∀ r₁, skipSpace r = ']' :: r₁ → j = .list (value :: before).reverse ∧ r' = r₁) ∧
      ∀ r₁, skipSpace r = ',' :: r₁ →
        readItems? (readValue? depth) n (value :: before) (skipSpace r₁) = some (j, r') := by
  cases fuel with
  | zero => cases hread
  | succ n =>
      simp only [readItems?, Option.bind_eq_bind, Option.bind_eq_some_iff] at hread
      obtain ⟨⟨value, r₂⟩, hvalue, hread⟩ := hread
      obtain ⟨hrest, hdenotes⟩ := h depth value r₂ hr hvalue
      rw [hrest] at hread
      refine ⟨n, value, hdenotes, fun r₁ hr₁ => ?_, fun r₁ hr₁ => ?_⟩ <;> rw [hr₁] at hread
      · cases hread
        exact ⟨rfl, rfl⟩
      · exact hread

theorem readsAs {p : Part} (h : Spells p s r) : ReadsAs s r p := by
  induction h with
  | bare ht => exact fun depth j r' hr hread => readValue?_bare ht hr hread
  | quoted hbody =>
      intro depth j r' _ hread
      rw [readValue?_quoted, readString?_append hbody, Option.map_map, Option.map_eq_some_iff] at hread
      obtain ⟨u, hsaid, heq⟩ := hread
      cases heq
      exact ⟨rfl, .quoted hsaid⟩
  | @list l s r hl ih =>
      intro depth j r' _ hread
      cases depth with
      | zero => cases hread
      | succ depth =>
          rw [readValue?_list] at hread
          rcases items_start hl with ⟨rfl, hgap⟩ | ⟨hne, a, u, hs, ha⟩
          · rw [skipSpace_gap hgap, skipSpace_solid rfl] at hread
            cases hread
            exact ⟨rfl, .list .noItems⟩
          · split at hread
            · next heq => exact absurd (List.cons.inj (hs.symm.trans heq)).1 ha
            · obtain ⟨rfl, js, rfl, hjs⟩ := ih hne depth _ [] j r r' rfl hread
              exact ⟨rfl, .list hjs⟩
  | @object l s r hl ih =>
      intro depth j r' _ hread
      cases depth with
      | zero => cases hread
      | succ depth =>
          rw [readValue?_object] at hread
          rcases fields_start hl with ⟨rfl, hgap⟩ | ⟨hne, u, hs⟩
          · rw [skipSpace_gap hgap, skipSpace_solid rfl] at hread
            cases hread
            exact ⟨rfl, .object .noFields⟩
          · split at hread
            · next heq => exact absurd (List.cons.inj (hs.symm.trans heq)).1 (by decide)
            · obtain ⟨rfl, js, rfl, hjs⟩ := ih hne depth _ [] j r r' rfl hread
              exact ⟨rfl, .object hjs⟩
  | item hbefore hvalue hafter ih =>
      intro depth j r' hr hread
      obtain ⟨a, u, rfl, hspace, -⟩ := head_of_value hvalue
      rw [skipSpace_gap hbefore, skipSpace_solid hspace] at hread
      obtain ⟨rfl, hdenotes⟩ := ih depth j r' (stops_gap hafter hr) hread
      exact ⟨skipSpace_gap hafter, .item hdenotes⟩
  | noItems => exact fun hne => absurd rfl hne
  | lastItem hd ih =>
      rintro - depth fuel before j r₁ r' rfl hread
      obtain ⟨n, value, hdenotes, hend, -⟩ := readItems?_item ih (stops_cons (by decide) _) hread
      obtain ⟨rfl, rfl⟩ := hend r₁ (skipSpace_solid rfl _)
      exact ⟨rfl, [value], by simp, .items hdenotes .noItems⟩
  | items hd hl ihd ihl =>
      rintro - depth fuel before j r₁ r' rfl hread
      obtain ⟨n, value, hdenotes, -, hmore⟩ := readItems?_item ihd (stops_cons (by decide) _) hread
      obtain ⟨rfl, js, rfl, hjs⟩ := ihl (by simp) depth n (value :: before) j r₁ r' rfl (hmore _ (skipSpace_solid rfl _))
      exact ⟨rfl, value :: js, by simp, .items hdenotes hjs⟩
  | field hbefore hkey hcolon hd ih =>
      intro depth fuel before j r' hr hread
      rw [skipSpace_gap hbefore, skipSpace_solid rfl] at hread
      cases fuel with
      | zero => cases hread
      | succ n =>
          simp only [readFields?, readString?_append hkey, Option.bind_eq_bind, Option.bind_eq_some_iff, Option.map_eq_some_iff] at hread
          obtain ⟨_, ⟨name, hsaid, rfl⟩, hread⟩ := hread
          rw [skipSpace_gap hcolon, skipSpace_solid rfl] at hread
          obtain ⟨⟨value, r₂⟩, hvalue, hread⟩ := Option.bind_eq_some_iff.1 hread
          obtain ⟨hrest, hdenotes⟩ := ih depth value r₂ hr hvalue
          rw [hrest] at hread
          refine ⟨n, name, value, hsaid, hdenotes, fun r₁ hr₁ => ?_, fun r₁ hr₁ => ?_⟩ <;> rw [hr₁] at hread
          · cases hread
            exact ⟨rfl, rfl⟩
          · exact hread
  | noFields => exact fun hne => absurd rfl hne
  | lastField hd ih =>
      rintro - depth fuel before j r₁ r' rfl hread
      obtain ⟨n, name, value, hsaid, hdenotes, hend, -⟩ := ih depth fuel before j r' (stops_cons (by decide) _) hread
      obtain ⟨rfl, rfl⟩ := hend r₁ (skipSpace_solid rfl _)
      exact ⟨rfl, [(name, value)], by simp, .fields hsaid hdenotes .noFields⟩
  | fields hd hl ihd ihl =>
      rintro - depth fuel before j r₁ r' rfl hread
      obtain ⟨n, name, value, hsaid, hdenotes, -, hmore⟩ := ihd depth fuel before j r' (stops_cons (by decide) _) hread
      obtain ⟨rfl, js, rfl, hjs⟩ :=
        ihl (by simp) depth n ((name, value) :: before) j r₁ r' rfl (hmore _ (skipSpace_solid rfl _))
      exact ⟨rfl, (name, value) :: js, by simp, .fields hsaid hdenotes hjs⟩

/-- What is read of a document is what it denotes. -/
theorem read?_denotes {text : String} {e : Written} (h : IsDocument text e) (hread : read? text = some j) :
    Denotes (.item e) j := by
  rw [read?] at hread
  split at hread
  · next value r' hvalue =>
      obtain ⟨-, hdenotes⟩ := readsAs h maxDepth value r' nofun hvalue
      split at hread
      · cases hread
        exact hdenotes
      · cases hread
  · cases hread

end SiteTree.Json
