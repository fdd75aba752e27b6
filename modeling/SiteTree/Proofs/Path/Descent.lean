import SiteTree.Proofs.Path.Spells

/-!
Paths below any path, absolute or not: the parts of a child, of its sibling under another name, and
a path relative to one that it goes down from.
-/

namespace SiteTree.Path

open Text

variable {p q root : Path} {s name : String} {a r t : List Char} {body b b' : List (List Char)} {x : Parts}
  {rel : List String}

/-- The parts that a text which is not empty has. -/
structure Parts.Valid (x : Parts) : Prop where
  slash : ∀ t ∈ x.body, '/' ∉ t
  root : x.lead = .root → x.body ≠ []
  here : x.lead = .here → x.body = [] ∨ ∃ b, b ≠ [] ∧ x.body = [] :: b
  bare : x.lead = .bare → ∃ t b, x.body = t :: b ∧ isFiller t = false

theorem chars_parts (p : Path) : Parts.chars p.parts = p.text.toList := by
  unfold parts
  split
  · next r hr => rw [hr]; simp [Parts.chars, Lead.chars, glue_split]
  · next hr => rw [hr]; rfl
  · next r hr =>
    rw [hr, Parts.chars, glue_cons '/' [] (split_ne_nil '/' r), glue_split]
    rfl
  · exact glue_split '/' p.text.toList

theorem head_split_cons {c : Char} (hc : c ≠ '/') (a : List Char) :
    ∃ t b, split '/' (c :: a) = (c :: t) :: b ∧ (t = [] → a = [] ∨ a.head? = some '/') := by
  cases a with
  | nil => exact ⟨[], [], by simp [split, hc], fun _ => .inl rfl⟩
  | cons d a =>
      rw [split, if_neg hc]
      by_cases hd : d = '/'
      · subst hd
        exact ⟨[], split '/' a, by simp [split], fun _ => .inr rfl⟩
      · obtain ⟨t, b, hb⟩ : ∃ t b, split '/' (d :: a) = (d :: t) :: b := by
          rw [split, if_neg hd]
          split <;> simp
        exact ⟨d :: t, b, by rw [hb], by simp⟩

theorem valid_parts (hp : p.text ≠ "") : p.parts.Valid := by
  unfold parts
  split
  · exact ⟨fun _ => not_mem_of_mem_split, fun _ => split_ne_nil _ _, nofun, nofun⟩
  · exact ⟨nofun, nofun, fun _ => .inl rfl, nofun⟩
  · next r _ =>
    refine ⟨fun t ht => ?_, nofun, fun _ => .inr ⟨_, split_ne_nil '/' r, rfl⟩, nofun⟩
    rcases List.mem_cons.1 ht with rfl | ht
    · exact List.not_mem_nil
    · exact not_mem_of_mem_split ht
  · next h1 h2 h3 =>
    refine ⟨fun _ => not_mem_of_mem_split, nofun, nofun, fun _ => ?_⟩
    rcases hd : p.text.toList with _ | ⟨c, r⟩
    · exact absurd (by simpa using hd) hp
    · obtain ⟨t, b, hb, ht⟩ := head_split_cons (c := c) (by rintro rfl; exact h1 r hd) r
      refine ⟨c :: t, b, hb, Bool.eq_false_iff.2 fun hf => ?_⟩
      obtain ⟨rfl, rfl⟩ : c = '.' ∧ t = [] := by simpa [isFiller] using hf
      rcases ht rfl with rfl | hr
      · exact h2 hd
      · obtain ⟨r, rfl⟩ := List.head?_eq_some_iff.1 hr
        exact h3 r hd

theorem parts_ofChars (h : x.Valid) : (ofChars x.chars).parts = x := by
  obtain ⟨lead, body⟩ := x
  unfold parts
  rw [toList_ofChars, Parts.chars]
  cases lead with
  | root => simp [Lead.chars, split_glue (h.root rfl) h.slash]
  | here =>
      rcases h.here rfl with hb | ⟨b, hne, hb⟩
      · obtain rfl : body = [] := hb
        rfl
      · obtain rfl : body = [] :: b := hb
        rw [glue_cons '/' [] hne]
        simp [Lead.chars, split_glue hne fun t ht => h.slash t (List.mem_cons_of_mem _ ht)]
  | bare =>
      obtain ⟨t, b, hb, hf⟩ := h.bare rfl
      obtain rfl : body = t :: b := hb
      have hsplit : split '/' (glue '/' (t :: b)) = t :: b := split_glue (by simp) h.slash
      simp only [Lead.chars, List.nil_append]
      split
      · next r hr => rw [hr] at hsplit; simp only [split] at hsplit; cases hsplit; cases hf
      · next hr => rw [hr] at hsplit; cases hsplit; cases hf
      · next r hr => rw [hr] at hsplit; simp [split] at hsplit; rw [← hsplit.1] at hf; cases hf
      · rw [hsplit]

/-- What stands before a name that is put behind a path. An empty stretch at the end makes room. -/
def Parts.room (x : Parts) : List (List Char) :=
  match x.body.getLast? with
  | none => [[]]
  | some [] => x.body.dropLast
  | some _ => x.body

def Parts.child (x : Parts) (t : List Char) : Parts := ⟨x.lead, x.room ++ [t]⟩

theorem glue_append_singleton (hb : b ≠ []) (t : List Char) :
    glue '/' (b ++ [t]) = glue '/' b ++ '/' :: t := by
  induction b with
  | nil => exact absurd rfl hb
  | cons u b ih =>
      cases b with
      | nil => rfl
      | cons v b => rw [List.cons_append, glue_cons '/' u (by simp), ih (by simp), glue_cons '/' u (by simp)]; simp

theorem text_join (hq : q.isAbsolute = false) (hp : p.text ≠ "") : (p.join q).text.toList =
    if p.text.toList.getLast? = some '/' then p.text.toList ++ q.text.toList
    else p.text.toList ++ '/' :: q.text.toList := by
  rw [join, hq]
  rcases hlast : p.text.toList.getLast? with _ | c
  · exact absurd (by simpa using hlast) hp
  · by_cases hc : c = '/' <;> simp [hc]

theorem stretches_join (hq : q.isAbsolute = false) (hp : p.text ≠ "") :
    stretches (p.join q).text.toList = stretches p.text.toList ++ stretches q.text.toList := by
  rw [text_join hq hp]
  split
  · next hlast =>
    obtain ⟨u, hu⟩ := List.getLast?_eq_some_iff.1 hlast
    rw [hu, List.append_assoc, List.singleton_append, stretches_append, stretches_append, stretches_nil,
      List.append_nil]
  · exact stretches_append _ _

theorem isAbsolute_of_not_mem (hs : '/' ∉ s.toList) : isAbsolute ⟨s⟩ = false :=
  isAbsolute_eq_false.2 fun he => hs (List.mem_of_head? he)

theorem isAbsolute_name (hs : IsName s) : isAbsolute ⟨s⟩ = false := isAbsolute_of_not_mem hs.2.2.2

theorem text_child (hs : IsName s) (hp : p.text ≠ "") : (p.child s).text.toList =
    if p.text.toList.getLast? = some '/' then p.text.toList ++ s.toList
    else p.text.toList ++ '/' :: s.toList := text_join (isAbsolute_name hs) hp

/-- The three ways that the stretches can end. -/
theorem body_cases (body : List (List Char)) :
    body = [] ∨ (∃ b, body = b ++ [[]]) ∨ ∃ b t, t ≠ [] ∧ body = b ++ [t] := by
  rcases List.eq_nil_or_concat' body with rfl | ⟨b, t, rfl⟩
  · exact .inl rfl
  · by_cases ht : t = []
    · exact .inr (.inl ⟨b, by rw [ht]⟩)
    · exact .inr (.inr ⟨b, t, ht, rfl⟩)

theorem Parts.child_of_last (hb : x.body = b ++ [t]) (ht : t ≠ []) (u : List Char) :
    x.child u = ⟨x.lead, x.body ++ [u]⟩ := by
  cases t with
  | nil => exact absurd rfl ht
  | cons c t => simp [Parts.child, Parts.room, hb]

theorem Parts.Valid.child (h : x.Valid) (hs : '/' ∉ s.toList) : (x.child s.toList).Valid := by
  have hslash : ∀ {b : List (List Char)}, (∀ t ∈ b, '/' ∉ t) → ∀ t ∈ b ++ [s.toList], '/' ∉ t := by
    intro b hb t ht
    rcases List.mem_append.1 ht with ht | ht
    · exact hb t ht
    · exact List.mem_singleton.1 ht ▸ hs
  obtain ⟨lead, body⟩ := x
  rcases body_cases body with rfl | ⟨b, rfl⟩ | ⟨b, t, ht, rfl⟩
  · refine ⟨hslash (b := [[]]) (by simp), fun _ => by simp [Parts.child], fun _ =>
      .inr ⟨[s.toList], by simp, rfl⟩, fun hl => ?_⟩
    obtain ⟨t, b, hb, -⟩ := h.bare hl
    cases hb
  · have hc : Parts.child ⟨lead, b ++ [[]]⟩ s.toList = ⟨lead, b ++ [s.toList]⟩ := by
      simp [Parts.child, Parts.room]
    rw [hc]
    refine ⟨hslash fun t ht => h.slash t (List.mem_append_left _ ht), fun _ => by simp, fun hl => ?_, fun hl => ?_⟩
    · obtain hb | ⟨b', hne, hb⟩ := h.here hl
      · simp at hb
      · cases b with
        | nil => exact absurd (List.cons_eq_cons.1 hb).2.symm hne
        | cons u b =>
            obtain ⟨rfl, -⟩ := List.cons_eq_cons.1 hb
            exact .inr ⟨b ++ [s.toList], by simp, rfl⟩
    · obtain ⟨t, b', hb, hf⟩ := h.bare hl
      cases b with
      | nil => obtain ⟨rfl, -⟩ := List.cons_eq_cons.1 hb; cases hf
      | cons u b =>
          obtain ⟨rfl, -⟩ := List.cons_eq_cons.1 hb
          exact ⟨u, b ++ [s.toList], rfl, hf⟩
  · rw [Parts.child_of_last rfl ht]
    refine ⟨hslash h.slash, fun _ => by simp, fun hl => ?_, fun hl => ?_⟩
    · obtain hb | ⟨b', hne, hb⟩ := h.here hl
      · simp at hb
      · exact .inr ⟨b' ++ [s.toList], by simp, congrArg (· ++ [s.toList]) hb⟩
    · obtain ⟨u, b', hb, hf⟩ := h.bare hl
      exact ⟨u, b' ++ [s.toList], congrArg (· ++ [s.toList]) hb, hf⟩

theorem Parts.Valid.chars_child (h : x.Valid) (s : String) : (x.child s.toList).chars =
    if x.chars.getLast? = some '/' then x.chars ++ s.toList else x.chars ++ '/' :: s.toList := by
  obtain ⟨lead, body⟩ := x
  rcases body_cases body with rfl | ⟨b, rfl⟩ | ⟨b, t, ht, rfl⟩
  · cases lead with
    | root => exact absurd rfl (h.root rfl)
    | here => rfl
    | bare => obtain ⟨t, b, hb, -⟩ := h.bare rfl; cases hb
  · have hc : Parts.child ⟨lead, b ++ [[]]⟩ s.toList = ⟨lead, b ++ [s.toList]⟩ := by
      simp [Parts.child, Parts.room]
    rw [hc]
    by_cases hb : b = []
    · subst hb
      cases lead with
      | root => rfl
      | here => rcases h.here rfl with hb | ⟨b', hne, hb⟩ <;> simp_all
      | bare => obtain ⟨t, b, hb, hf⟩ := h.bare rfl; simp_all [isFiller]
    · simp [Parts.chars, glue_append_singleton hb]
  · have hlast : (glue '/' (b ++ [t])).getLast? ≠ some '/' := by
      have hts : t.getLast? ≠ some '/' := fun he => h.slash t (by simp) (List.mem_of_getLast? he)
      by_cases hb : b = []
      · subst hb; exact hts
      · rw [glue_append_singleton hb, List.getLast?_append, List.getLast?_cons,
          List.getLast?_eq_some_getLast ht]
        rwa [List.getLast?_eq_some_getLast ht] at hts
    have hne : glue '/' (b ++ [t]) ≠ [] := by
      by_cases hb : b = []
      · subst hb; exact ht
      · simp [glue_append_singleton hb]
    rw [Parts.child_of_last rfl ht, Parts.chars, Parts.chars, glue_append_singleton (by simp), if_neg]
    · simp
    · rw [List.getLast?_append, List.getLast?_eq_some_getLast hne] at *
      simpa using hlast

theorem text_stretch (hs : '/' ∉ s.toList) (hp : p.text ≠ "") :
    (p.child s).text.toList = (p.parts.child s.toList).chars := by
  rw [child, text_join (isAbsolute_of_not_mem hs) hp, (valid_parts hp).chars_child s, chars_parts]

/-- One stretch more, which may be a dot, two of them, or nothing. -/
theorem parts_stretch (hs : '/' ∉ s.toList) (hp : p.text ≠ "") : (p.child s).parts = p.parts.child s.toList := by
  rw [← parts_ofChars ((valid_parts hp).child hs), ← text_stretch hs hp, ofChars, String.ofList_toList]

theorem parts_child (hs : IsName s) (hp : p.text ≠ "") : (p.child s).parts = p.parts.child s.toList :=
  parts_stretch hs.2.2.2 hp

theorem child_ne_empty (hs : IsName s) (hp : p.text ≠ "") : (p.child s).text ≠ "" := by
  intro he
  have ht := text_child hs hp
  rw [he] at ht
  split at ht <;> simp_all [hs.1]

theorem head?_child (hs : IsName s) (hp : p.text ≠ "") : (p.child s).text.toList.head? = p.text.toList.head? := by
  have hne : p.text.toList ≠ [] := by simpa using hp
  rw [text_child hs hp]
  split <;> simp [List.head?_append, List.head?_eq_some_head hne]

theorem stretches_child (hs : IsName s) (hp : p.text ≠ "") :
    stretches (p.child s).text.toList = stretches p.text.toList ++ [s] := by
  rw [text_child hs hp, ← stretches_toList hs.1 hs.2.2.2]
  split
  · next hl =>
    obtain ⟨u, hu⟩ := List.getLast?_eq_some_iff.1 hl
    rw [hu, List.append_assoc, List.singleton_append, stretches_append, stretches_append]
    simp
  · rw [stretches_append]

theorem isOpen_child (hs : IsName s) (hp : p.text ≠ "") : (p.child s).IsOpen := by
  have hne : s.toList ≠ [] := by simpa using hs.1
  have hlast : (p.child s).text.toList.getLast? = some (s.toList.getLast hne) := by
    rw [text_child hs hp]
    split
    · rw [List.getLast?_append, List.getLast?_eq_some_getLast hne]; rfl
    · rw [List.getLast?_append, List.getLast?_cons, List.getLast?_eq_some_getLast hne]; rfl
  rw [IsOpen, hlast]
  exact fun he => hs.2.2.2 (Option.some.inj he ▸ List.getLast_mem hne)

theorem isFiller_name (hs : IsName s) : isFiller s.toList = false := by
  have hdot : s.toList ≠ ['.'] := fun he => hs.2.1 (String.toList_inj.1 he)
  simp [isFiller, hs.1, hdot]

theorem trimBody_of_last (hf : isFiller t = false) (b : List (List Char)) : trimBody (b ++ [t]) = b ++ [t] := by
  simp [trimBody_append_singleton, hf]

@[simp] theorem trimBody_trimBody (b : List (List Char)) : trimBody (trimBody b) = trimBody b := by
  induction b using List.reverseRecOn with
  | nil => rfl
  | append_singleton b t ih =>
      rw [trimBody_append_singleton]
      split
      · exact ih
      · next hf => exact trimBody_of_last (by simpa using hf) b

@[simp] theorem Parts.trimBody_room (x : Parts) : trimBody x.room = trimBody x.body := by
  obtain ⟨lead, body⟩ := x
  rcases body_cases body with rfl | ⟨b, rfl⟩ | ⟨b, t, ht, rfl⟩
  · rfl
  · simp [room, trimBody_append_singleton, isFiller]
  · cases t with
    | nil => exact absurd rfl ht
    | cons c t => simp [room]

/-- The path without dots and slashes at its end. -/
def trimmed (p : Path) : Path := ofChars (Parts.chars ⟨p.parts.lead, trimBody p.parts.body⟩)

theorem trimmed_eq_self (h : trimBody p.parts.body = p.parts.body) : p.trimmed = p := by
  have hp : (⟨p.parts.lead, p.parts.body⟩ : Parts) = p.parts := rfl
  rw [trimmed, h, hp, chars_parts, ofChars, String.ofList_toList]

theorem trimBody_cons (t : List Char) (b : List (List Char)) : trimBody (t :: b) =
    if trimBody b = [] ∧ isFiller t then [] else t :: trimBody b := by
  induction b using List.reverseRecOn with
  | nil => by_cases ht : isFiller t <;> simp [trimBody, ht]
  | append_singleton b u ih =>
      rw [← List.cons_append, trimBody_append_singleton, trimBody_append_singleton, ih]
      by_cases hu : isFiller u <;> simp [hu]

theorem Parts.Valid.trim_here (h : x.Valid) (hl : x.lead = .here) :
    trimBody x.body = [] ∨ ∃ b, b ≠ [] ∧ trimBody x.body = [] :: b := by
  obtain hb | ⟨b, -, hb⟩ := h.here hl
  · exact .inl (by rw [hb]; rfl)
  · rw [hb, trimBody_cons]
    by_cases hnil : trimBody b = []
    · exact .inl (if_pos ⟨hnil, rfl⟩)
    · exact .inr ⟨trimBody b, hnil, if_neg fun h => hnil h.1⟩

theorem parts_trimmed (hp : p.text ≠ "") : p.trimmed.parts.lead = p.parts.lead ∧
    trimBody p.trimmed.parts.body = trimBody p.parts.body := by
  have hv := valid_parts hp
  have hslash : ∀ t ∈ trimBody p.parts.body, '/' ∉ t := fun t ht => hv.slash t (mem_of_mem_trimBody ht)
  by_cases hroot : p.parts.lead = .root ∧ trimBody p.parts.body = []
  · rw [trimmed, hroot.1, hroot.2]
    exact ⟨rfl, rfl⟩
  have hvalid : Parts.Valid ⟨p.parts.lead, trimBody p.parts.body⟩ := by
    refine ⟨hslash, fun hl hb => hroot ⟨hl, hb⟩, hv.trim_here, fun hl => ?_⟩
    obtain ⟨t, b, hb, hf⟩ := hv.bare hl
    exact ⟨t, trimBody b, by show trimBody p.parts.body = _; rw [hb, trimBody_cons, if_neg]; simp [hf], hf⟩
  rw [trimmed, parts_ofChars hvalid]
  exact ⟨rfl, trimBody_trimBody _⟩

theorem trimmed_ne_empty (hp : p.text ≠ "") : p.trimmed.text ≠ "" := by
  intro he
  have hv := valid_parts hp
  have hparts := parts_trimmed hp
  have hpt : p.trimmed.parts = ⟨.bare, [[]]⟩ := by
    rw [parts, he]
    rfl
  rw [hpt] at hparts
  obtain ⟨t, b, hb, hf⟩ := hv.bare hparts.1.symm
  have hc := trimBody_cons t b
  rw [← hb, ← hparts.2, if_neg (by simp [hf])] at hc
  cases hc

/-- The stretches that the start of a path counts for. -/
def Lead.stretches : Lead → List String
  | .here => ["."]
  | _ => []

theorem stretches_chars (hslash : ∀ t ∈ x.body, '/' ∉ t)
    (hhere : x.lead = .here → x.body = [] ∨ ∃ b, b ≠ [] ∧ x.body = [] :: b) :
    stretches x.chars = x.lead.stretches ++ solid x.body := by
  obtain ⟨lead, body⟩ := x
  cases lead with
  | root => exact (stretches_slash _).trans (solid_glue hslash)
  | bare => exact solid_glue hslash
  | here =>
      rcases hhere rfl with hb | ⟨b, hne, hb⟩
      · obtain rfl : body = [] := hb
        rfl
      · obtain rfl : body = [] :: b := hb
        have hg : stretches (glue '/' b) = solid b := solid_glue fun u hu => hslash u (List.mem_cons_of_mem [] hu)
        show stretches ('.' :: glue '/' ([] :: b)) = "." :: solid ([] :: b)
        rw [glue_cons '/' [] hne, List.nil_append, show '.' :: '/' :: glue '/' b = ['.'] ++ '/' :: glue '/' b from rfl,
          stretches_append, hg]
        rfl

theorem stretches_parts (hp : p.text ≠ "") :
    stretches p.text.toList = p.parts.lead.stretches ++ solid p.parts.body := by
  have hv := valid_parts hp
  rw [← chars_parts, stretches_chars hv.slash hv.here]

theorem solid_eq_trimBody (b : List (List Char)) : ∃ n, solid b = solid (trimBody b) ++ List.replicate n "." := by
  induction b using List.reverseRecOn with
  | nil => exact ⟨0, rfl⟩
  | append_singleton b t ih =>
      rw [trimBody_append_singleton]
      split
      · next hf =>
        obtain ⟨n, hn⟩ := ih
        rcases (show t = [] ∨ t = ['.'] by simpa [isFiller] using hf) with rfl | rfl
        · exact ⟨n, by simpa using hn⟩
        · exact ⟨n + 1, by rw [solid_append, hn, List.append_assoc, List.replicate_succ']; rfl⟩
      · exact ⟨0, by simp⟩

theorem stretches_trimmed (hp : p.text ≠ "") :
    ∃ n, stretches p.text.toList = stretches p.trimmed.text.toList ++ List.replicate n "." := by
  have hv := valid_parts hp
  obtain ⟨n, hn⟩ := solid_eq_trimBody p.parts.body
  refine ⟨n, ?_⟩
  rw [stretches_parts hp, hn, trimmed, toList_ofChars,
    stretches_chars (fun t ht => hv.slash t (mem_of_mem_trimBody ht)) hv.trim_here, List.append_assoc]

theorem lead_eq_root : p.parts.lead = .root ↔ p.text.toList.head? = some '/' := by
  unfold parts
  split
  · next hr => simp [hr]
  · next hr => simp [hr]
  · next hr => simp [hr]
  · next h1 _ _ =>
    refine ⟨nofun, fun hh => ?_⟩
    obtain ⟨r, hr⟩ := List.head?_eq_some_iff.1 hh
    exact absurd hr (h1 r)

theorem fileChars_child (hs : IsName s) (hp : p.text ≠ "") : (p.child s).fileChars? = some s.toList := by
  have hup : s.toList ≠ ['.', '.'] := fun he => hs.2.2.1 (String.toList_inj.1 he)
  rw [fileChars?, parts_child hs hp, Parts.child, splitBody?_append_singleton, isFiller_name hs]
  simp [hup]

theorem parent?_child (hs : IsName s) (hp : p.text ≠ "") : (p.child s).parent? = some p.trimmed := by
  rw [parent?, parts_child hs hp, Parts.child, splitBody?_append_singleton, isFiller_name hs]
  simp [trimmed]

theorem withFileName_child (hs : IsName s) (hp : p.text ≠ "") (name : String) :
    (p.child s).withFileName name = p.trimmed.child name := by
  rw [withFileName, fileChars_child hs hp, parent?_child hs hp]

/-- A name is not trimmed. -/
theorem trimmed_child (hs : IsName s) (hp : p.text ≠ "") : (p.child s).trimmed = p.child s := by
  refine trimmed_eq_self ?_
  rw [parts_child hs hp]
  exact trimBody_of_last (isFiller_name hs) _

/-- Goes down by one name after another. -/
def descend (p : Path) (rel : List String) : Path := rel.foldl child p

@[simp] theorem descend_append (p : Path) (rel : List String) (s : String) :
    p.descend (rel ++ [s]) = (p.descend rel).child s := by
  simp [descend]

theorem descend_ne_empty (hp : p.text ≠ "") (hrel : ∀ s ∈ rel, IsName s) : (p.descend rel).text ≠ "" := by
  induction rel using List.reverseRecOn with
  | nil => exact hp
  | append_singleton rel s ih =>
      rw [descend_append]
      exact child_ne_empty (hrel s (by simp)) (ih fun t ht => hrel t (List.mem_append_left _ ht))

theorem stretches_descend (hp : p.text ≠ "") (hrel : ∀ s ∈ rel, IsName s) :
    stretches (p.descend rel).text.toList = stretches p.text.toList ++ rel := by
  induction rel using List.reverseRecOn with
  | nil => simp [descend]
  | append_singleton rel s ih =>
      have hrel' : ∀ t ∈ rel, IsName t := fun t ht => hrel t (List.mem_append_left _ ht)
      rw [descend_append, stretches_child (hrel s (by simp)) (descend_ne_empty hp hrel'), ih hrel', List.append_assoc]

theorem head?_descend (hp : p.text ≠ "") (hrel : ∀ s ∈ rel, IsName s) :
    (p.descend rel).text.toList.head? = p.text.toList.head? := by
  induction rel using List.reverseRecOn with
  | nil => rfl
  | append_singleton rel s ih =>
      have hrel' : ∀ t ∈ rel, IsName t := fun t ht => hrel t (List.mem_append_left _ ht)
      rw [descend_append, head?_child (hrel s (by simp)) (descend_ne_empty hp hrel'), ih hrel']

theorem isOpen_descend (hp : p.text ≠ "") (hrel : ∀ s ∈ rel, IsName s) (hne : rel ≠ []) : (p.descend rel).IsOpen := by
  obtain ⟨rel, s, rfl⟩ := (List.eq_nil_or_concat' rel).resolve_left hne
  rw [descend_append]
  exact isOpen_child (hrel s (by simp)) (descend_ne_empty hp fun t ht => hrel t (List.mem_append_left _ ht))

/-- What is above a path that goes down by names goes down by all but the last of them. -/
theorem parent?_descend (hp : p.text ≠ "") (hrel : ∀ t ∈ rel ++ [s], IsName t) :
    (p.descend (rel ++ [s])).parent? = some (if rel = [] then p.trimmed else p.descend rel) := by
  have hrel' : ∀ t ∈ rel, IsName t := fun t ht => hrel t (List.mem_append_left _ ht)
  rw [descend_append, parent?_child (hrel s (by simp)) (descend_ne_empty hp hrel')]
  split
  · next hnil => rw [hnil]; rfl
  · next hne =>
    obtain ⟨l, t, rfl⟩ := (List.eq_nil_or_concat' rel).resolve_left hne
    rw [descend_append, trimmed_child (hrel' t (by simp)) (descend_ne_empty hp fun u hu => hrel' u (List.mem_append_left _ hu))]

theorem Spells.ne_empty {l : List String} (h : p.Spells l) : p.text ≠ "" := by
  simpa [Path.isEmpty] using h.isEmpty

theorem Spells.trimmed {l : List String} (h : p.Spells l) : p.trimmed.Spells l := by
  have hroot : p.trimmed.text.toList.head? = some '/' := by
    obtain ⟨r, hr⟩ := h.absolute
    rw [← lead_eq_root, (parts_trimmed h.ne_empty).1, lead_eq_root, hr]
    rfl
  obtain ⟨n, hn⟩ := stretches_trimmed h.ne_empty
  have hzero : n = 0 := by
    by_contra hn0
    refine h.noHere ?_
    rw [← h.stretches, hn]
    exact List.mem_append_right _ (List.mem_replicate.2 ⟨hn0, rfl⟩)
  rw [hzero, List.replicate_zero, List.append_nil, h.stretches] at hn
  exact ⟨List.head?_eq_some_iff.1 hroot, hn.symm, h.noHere⟩

theorem Spells.descend {l : List String} (h : p.Spells l) (hrel : ∀ s ∈ rel, IsName s) :
    (p.descend rel).Spells (l ++ rel) := by
  induction rel using List.reverseRecOn with
  | nil => simpa [Path.descend] using h
  | append_singleton rel s ih =>
      rw [descend_append, ← List.append_assoc]
      exact ((ih fun t ht => hrel t (List.mem_append_left _ ht)).child (hrel s (by simp))).1

theorem parts_descend (hp : p.text ≠ "") (hrel : ∀ s ∈ rel, IsName s) (hne : rel ≠ []) :
    (p.descend rel).parts = ⟨p.parts.lead, p.parts.room ++ rel.map String.toList⟩ := by
  induction rel using List.reverseRecOn with
  | nil => exact absurd rfl hne
  | append_singleton rel s ih =>
      have hrel' : ∀ t ∈ rel, IsName t := fun t ht => hrel t (List.mem_append_left _ ht)
      rw [descend_append, parts_child (hrel s (by simp)) (descend_ne_empty hp hrel')]
      rcases List.eq_nil_or_concat' rel with rfl | ⟨rel, t, rfl⟩
      · rfl
      · have ht : t.toList ≠ [] := by simpa using (hrel' t (by simp)).1
        rw [ih hrel' (by simp), Parts.child_of_last (b := p.parts.room ++ rel.map String.toList) (by simp) ht]
        simp

/-- Going down by names is joining with them, slashes between them. -/
theorem join_glue (hp : p.text ≠ "") (hrel : ∀ s ∈ rel, IsName s) (hne : rel ≠ []) :
    p.join (ofChars (glue '/' (rel.map String.toList))) = p.descend rel := by
  induction rel using List.reverseRecOn with
  | nil => exact absurd rfl hne
  | append_singleton rel s ih =>
      have hs := hrel s (by simp)
      have hrel' : ∀ t ∈ rel, IsName t := fun t ht => hrel t (List.mem_append_left _ ht)
      rw [descend_append]
      by_cases hnil : rel = []
      · subst hnil
        exact congrArg p.join (congrArg Path.mk String.ofList_toList)
      · have hmap : rel.map String.toList ≠ [] := by simpa using hnil
        have habs : ∀ b : List (List Char), isAbsolute (ofChars (glue '/' (rel.map String.toList ++ b))) = false := by
          intro b
          obtain ⟨t, l, rfl⟩ := List.exists_cons_of_ne_nil hnil
          have ht := hrel' t (by simp)
          rw [isAbsolute_eq_false, toList_ofChars, List.map_cons, List.cons_append,
            head?_glue_cons (by simpa using ht.1)]
          exact fun he => ht.2.2.2 (List.mem_of_head? he)
        have hopen : (p.descend rel).text.toList.getLast? ≠ some '/' := by
          obtain ⟨l, t, rfl⟩ := (List.eq_nil_or_concat' rel).resolve_left hnil
          rw [descend_append]
          exact isOpen_child (hrel' t (by simp))
            (descend_ne_empty hp fun u hu => hrel' u (List.mem_append_left _ hu))
        have hjoin := congrArg (fun q : Path => q.text.toList) (ih hrel' hnil)
        have hbase := habs []
        rw [List.append_nil] at hbase
        have htext : (p.join (ofChars (glue '/' ((rel ++ [s]).map String.toList)))).text.toList =
            ((p.descend rel).child s).text.toList := by
          rw [text_child hs (descend_ne_empty hp hrel'), if_neg hopen, ← hjoin, List.map_append,
            text_join (habs _) hp, text_join hbase hp, toList_ofChars, toList_ofChars, List.map_singleton,
            glue_append_singleton hmap]
          split <;> simp
        exact congrArg Path.mk (String.toList_inj.1 htext)

theorem bodyComponents_append (b c : List (List Char)) :
    bodyComponents (b ++ c) = bodyComponents b ++ bodyComponents c := by
  simp [bodyComponents]

theorem bodyComponents_trimBody (b : List (List Char)) : bodyComponents (trimBody b) = bodyComponents b := by
  induction b using List.reverseRecOn with
  | nil => rfl
  | append_singleton b t ih =>
      rw [trimBody_append_singleton]
      split
      · next hf => rw [ih, bodyComponents_append]; simp [bodyComponents, hf]
      · rfl

theorem length_le_components (hp : p.text ≠ "") (hrel : ∀ s ∈ rel, IsName s) :
    rel.length ≤ (p.descend rel).components.length := by
  by_cases hne : rel = []
  · simp [hne]
  · have hbody : (bodyComponents (rel.map String.toList)).length = rel.length := by
      rw [bodyComponents, List.length_map, List.filter_eq_self.2, List.length_map]
      intro t ht
      obtain ⟨s, hs, rfl⟩ := List.mem_map.1 ht
      rw [isFiller_name (hrel s hs)]
      rfl
    rw [components, parts_descend hp hrel hne, bodyComponents_append, List.length_append, List.length_append, hbody]
    omega

theorem dropNames_append (b c : List (List Char)) :
    dropNames (bodyComponents b).length (b ++ c) = c.dropWhile isFiller := by
  induction b with
  | nil => simp [bodyComponents, dropNames]
  | cons t b ih =>
      rw [bodyComponents] at ih ⊢
      by_cases hf : isFiller t
      · rw [List.filter_cons_of_neg (by simpa using hf), ← ih]
        cases (b.filter (!isFiller ·)).map component <;> simp [dropNames, hf]
      · rw [List.filter_cons_of_pos (by simpa using hf), List.map_cons, List.length_cons, List.cons_append,
          dropNames, if_neg hf, ih]

/-- Names behind the components of a path are what is left when that path is taken off. -/
theorem relativeTo_of_parts (hroot : root.text ≠ "") (hlead : p.parts.lead = root.parts.lead)
    (hbody : p.parts.body = b ++ rel.map String.toList) (htrim : trimBody b = trimBody root.parts.body)
    (hrel : ∀ s ∈ rel, IsName s) (hne : rel ≠ []) :
    p.relativeTo root = ofChars (glue '/' (rel.map String.toList)) := by
  have hcomp : bodyComponents b = bodyComponents root.parts.body := by
    rw [← bodyComponents_trimBody, htrim, bodyComponents_trimBody]
  have hstarts : p.startsWith root = true := by
    rw [startsWith, List.isPrefixOf_iff_prefix, components, components, hlead, hbody, bodyComponents_append,
      hcomp, ← List.append_assoc]
    exact List.prefix_append _ _
  have hbodytrim : trimBody p.parts.body = p.parts.body := by
    obtain ⟨rel, s, rfl⟩ := (List.eq_nil_or_concat' rel).resolve_left hne
    rw [hbody, List.map_append, ← List.append_assoc]
    exact trimBody_of_last (isFiller_name (hrel s (by simp))) _
  have hlen : root.components.length = root.parts.lead.components.length + (bodyComponents b).length := by
    rw [components, List.length_append, hcomp]
  have hfirst : (rel.map String.toList).dropWhile isFiller = rel.map String.toList := by
    cases rel with
    | nil => rfl
    | cons s rel => simp [isFiller_name (hrel s (by simp))]
  have hdrop := (dropNames_append b (rel.map String.toList)).trans hfirst
  rw [relativeTo, stripBase?, if_pos hstarts, hlen, hbodytrim, hlead, hbody]
  cases hl : root.parts.lead with
  | root | here =>
      simp only [Lead.components, List.length_singleton, Nat.add_comm 1]
      simp [hdrop]
  | bare =>
      obtain ⟨t, c, hb, hf⟩ := (valid_parts hroot).bare hl
      have hpos : (bodyComponents b).length ≠ 0 := by
        rw [hcomp, hb, bodyComponents, List.filter_cons_of_pos (by simp [hf])]
        simp
      obtain ⟨n, hn⟩ := Nat.exists_eq_succ_of_ne_zero hpos
      rw [hn] at hdrop
      simp [Lead.components, hn, hdrop]

theorem relativeTo_descend (hroot : root.text ≠ "") (hrel : ∀ s ∈ rel, IsName s) (hne : rel ≠ []) :
    (root.descend rel).relativeTo root = ofChars (glue '/' (rel.map String.toList)) := by
  have hparts := parts_descend hroot hrel hne
  exact relativeTo_of_parts hroot (by rw [hparts]) (by rw [hparts]) (Parts.trimBody_room _) hrel hne

theorem ofChars_glue (names : List String) :
    ofChars (glue '/' (names.map String.toList)) = ⟨"/".intercalate names⟩ := by
  refine congrArg Path.mk (String.toList_inj.1 ?_)
  rw [String.toList_ofList, String.toList_intercalate, glue_eq_intercalate]
  rfl

theorem relativeTo_sibling (hroot : root.text ≠ "") (hrel : ∀ s ∈ rel, IsName s) (hs : IsName s)
    (hname : IsName name) : (((root.descend rel).child s).withFileName name).relativeTo root =
      ofChars (glue '/' ((rel ++ [name]).map String.toList)) := by
  have hrel' : ∀ t ∈ rel ++ [name], IsName t := by
    intro t ht
    rcases List.mem_append.1 ht with ht | ht
    · exact hrel t ht
    · exact List.mem_singleton.1 ht ▸ hname
  rw [withFileName_child hs (descend_ne_empty hroot hrel)]
  by_cases hne : rel = []
  · subst hne
    obtain ⟨hlead, htrim⟩ := parts_trimmed hroot
    have hparts := parts_child hname (trimmed_ne_empty hroot)
    exact relativeTo_of_parts hroot ((congrArg Parts.lead hparts).trans hlead)
      (congrArg Parts.body hparts) ((Parts.trimBody_room _).trans htrim) hrel' (by simp)
  · have htrim : (root.descend rel).trimmed = root.descend rel := by
      refine trimmed_eq_self ?_
      rw [parts_descend hroot hrel hne]
      obtain ⟨rel, t, rfl⟩ := (List.eq_nil_or_concat' rel).resolve_left hne
      show trimBody (root.parts.room ++ (rel ++ [t]).map String.toList) = _
      rw [List.map_append, ← List.append_assoc]
      exact trimBody_of_last (isFiller_name (hrel t (by simp))) _
    rw [htrim, ← descend_append]
    exact relativeTo_descend hroot hrel' (by simp)

end SiteTree.Path
