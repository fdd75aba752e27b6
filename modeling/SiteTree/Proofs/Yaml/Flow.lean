import SiteTree.Proofs.Yaml.Scalar
import SiteTree.Yaml.Token

/-!
The tokens of a JSON document as a YAML text. All of it stands between brackets, so no block begins and no key is
required anywhere; a scan that comes to the end has laid down the tokens of the document's parts, one after another,
and a key only where key and colon stand on one line.
-/

namespace SiteTree.Yaml

open Json

namespace Scan

variable {s t s' : Scan} {ts : List Token} {tok : Token} {r u : List Char} {a : Char}

/-- A scan outside of all blocks, still under way. -/
structure Tame (s : Scan) : Prop where
  indent : s.indent = -1
  key : ∀ k ∈ s.key, k.required = false
  outer : ∀ o ∈ s.outerKeys, ∀ k ∈ o, k.required = false
  unended : Token.streamEnd ∉ s.tokens

theorem tame_start (u : List Char) : (start u).Tame := by
  constructor <;> simp [start]

/-- The scan without the marks that have become too old. -/
def fresh (s : Scan) : Scan :=
  { s with key := s.key.filter fun k => !s.isStale k,
           outerKeys := s.outerKeys.map fun o => o.filter fun k => !s.isStale k }

theorem fresh_depth (s : Scan) : s.fresh.outerKeys.length = s.outerKeys.length := by
  rw [fresh, List.length_map]

theorem refresh?_eq {o : Option KeyMark} (h : ∀ k ∈ o, k.required = false) :
    s.refresh? o = some (o.filter fun k => !s.isStale k) := by
  cases o with
  | none => rfl
  | some k => cases hk : s.isStale k <;> simp [refresh?, hk, h k rfl, Option.filter]

namespace Tame

theorem dropStale?_eq (h : s.Tame) : s.dropStale? = some s.fresh := by
  have houter : ∀ l : List (Option KeyMark), (∀ o ∈ l, ∀ k ∈ o, k.required = false) →
      l.mapM s.refresh? = some (l.map fun o => o.filter fun k => !s.isStale k) := by
    intro l hl
    induction l with
    | nil => rfl
    | cons o l ih =>
        rw [List.mapM_cons, refresh?_eq (hl o (by simp)), ih fun p hp => hl p (by simp [hp])]
        rfl
  rw [dropStale?, refresh?_eq h.key, houter _ h.outer]
  rfl

theorem fresh (h : s.Tame) : s.fresh.Tame where
  indent := h.indent
  key := fun k hk => h.key k (Option.mem_filter_iff.1 hk).1
  outer := by
    simp only [Scan.fresh, List.mem_map]
    rintro _ ⟨o, ho, rfl⟩ k hk
    exact h.outer o ho k (Option.mem_filter_iff.1 hk).1
  unended := h.unended

theorem forgetKey?_eq (h : s.Tame) : s.forgetKey? = some { s with key := none } := by
  rw [forgetKey?]
  cases hk : s.key with
  | none => simp [← hk]
  | some k => simp [h.key k hk]

/-- The mark for a key right here. -/
theorem noteKey?_eq (h : s.Tame) : s.noteKey? = some (if s.keyAllowed then
    { s with key := some ⟨false, s.tokens.length, s.cursor.line, s.cursor.index, s.cursor.column⟩ } else s) := by
  rw [noteKey?]
  have hindent : decide (s.indent = (s.cursor.column : Int)) = false := by rw [h.indent]; simp
  cases hallowed : s.keyAllowed with
  | false => simp
  | true => simp [hindent, h.forgetKey?_eq, hallowed]

theorem unrollTo_eq (h : s.Tame) {column : Int} (hcolumn : -1 ≤ column) : s.unrollTo column = s := by
  rw [unrollTo, unroll]
  simp [h.indent, hcolumn]

end Tame

/-- What may come after a gap: the gap goes no further, for the scan either. -/
def Solid (r : List Char) : Prop := ∀ a ∈ r.head?, a ≠ '#' ∧ a ≠ '\uFEFF' ∧ isBreak a = false

theorem skipWhile_rest (c : Cursor) (p : Char → Bool) : (c.skipWhile p).rest = c.rest.dropWhile p := by
  have h : c.rest = c.rest.takeWhile p ++ c.rest.dropWhile p := List.takeWhile_append_dropWhile.symm
  calc (c.skipWhile p).rest = (c.rest.takeWhile p ++ c.rest.dropWhile p).drop (c.rest.takeWhile p).length := by
        rw [← h, Cursor.skipWhile]
    _ = c.rest.dropWhile p := List.drop_left

theorem skipSpace_dropWhile {p : Char → Bool} (hp : ∀ a, p a = true → isSpace a = true) (u : List Char) :
    skipSpace (u.dropWhile p) = skipSpace u := by
  induction u with
  | nil => rfl
  | cons a u ih =>
      cases ha : p a with
      | true => rw [List.dropWhile_cons_of_pos ha, skipSpace_cons (hp a ha), ih]
      | false => rw [List.dropWhile_cons_of_neg (by simp [ha])]

theorem Solid.not_seesChar {c : Cursor} (h : Solid (skipSpace c.rest)) (ha : isSpace a = false)
    (hbad : a = '#' ∨ a = '\uFEFF') : c.seesChar a = false := by
  cases hc : c.rest with
  | nil => simp [Cursor.seesChar, Cursor.sees, hc]
  | cons b u =>
      have hne : b ≠ a := by
        rintro rfl
        rw [hc, skipSpace_solid ha] at h
        obtain ⟨hsharp, hmark, -⟩ := h b rfl
        exact hbad.elim hsharp hmark
      simp [Cursor.seesChar, Cursor.sees, hc, hne]

theorem Solid.isSpace (h : Solid (skipSpace (a :: u))) (hbreak : isBreak a = true) : isSpace a = true := by
  by_contra hspace
  rw [Bool.not_eq_true] at hspace
  rw [skipSpace_solid hspace] at h
  simp [(h a rfl).2.2] at hbreak

/-- What a scan goes over on its line: blanks, and tabs where they may stand. -/
def skips (s : Scan) (a : Char) : Bool := a = ' ' || ((s.inFlow || !s.keyAllowed) && a = '\t')

theorem skipSpace_skips (s : Scan) : skipSpace (s.cursor.skipWhile s.skips).rest = skipSpace s.cursor.rest := by
  rw [skipWhile_rest]
  refine skipSpace_dropWhile (fun a ha => ?_) _
  simp only [skips, Bool.or_eq_true, decide_eq_true_eq, Bool.and_eq_true] at ha
  rcases ha with rfl | ⟨-, rfl⟩ <;> rfl

/-- Where the line goes on, the gap is at its end, or a tab stands that may not be gone over. -/
theorem head_of_skips (hrest : (s.cursor.skipWhile s.skips).rest = a :: u) (hbreak : isBreak a = false) :
    isSpace a = false ∨ a = '\t' := by
  have hnot : s.skips a = false := by
    have := List.head?_dropWhile_not s.skips s.cursor.rest
    rwa [← skipWhile_rest, hrest] at this
  have hne : a ≠ ' ' := by
    rintro rfl
    simp [skips] at hnot
  cases hspace : isSpace a with
  | false => exact .inl rfl
  | true =>
      simp only [Json.isSpace, Bool.or_eq_true, decide_eq_true_eq] at hspace
      rcases hspace with ((rfl | rfl) | rfl) | rfl
      · exact absurd rfl hne
      · exact absurd hbreak (by decide)
      · exact .inr rfl
      · exact absurd hbreak (by decide)

/-- Without a comment or a byte order mark a step only goes over blanks and one break. -/
theorem skipToToken_succ {n : Nat} (hsolid : Solid (skipSpace s.cursor.rest)) :
    ∃ b, (s.inFlow = true → b = s.keyAllowed) ∧
      skipToToken (n + 1) s = if (s.cursor.skipWhile s.skips).sees isBreak then
          skipToToken n { s with cursor := (s.cursor.skipWhile s.skips).skipLine.2, keyAllowed := b }
        else { s with cursor := s.cursor.skipWhile s.skips } := by
  have hsharp : (s.cursor.skipWhile s.skips).seesChar '#' = false :=
    Solid.not_seesChar (skipSpace_skips s ▸ hsolid) (by decide) (.inl rfl)
  have hmark : s.cursor.seesChar '\uFEFF' = false := hsolid.not_seesChar (by decide) (.inr rfl)
  have hstep : skipToToken (n + 1) s = if (s.cursor.skipWhile s.skips).sees isBreak then
      skipToToken n (if s.inFlow then { s with cursor := (s.cursor.skipWhile s.skips).skipLine.2 }
        else { s with cursor := (s.cursor.skipWhile s.skips).skipLine.2, keyAllowed := true })
      else { s with cursor := s.cursor.skipWhile s.skips } := by
    change (s.cursor.skipWhile fun a => a = ' ' || ((s.inFlow || !s.keyAllowed) && a = '\t')).seesChar '#' = false at hsharp
    simp only [skipToToken, hmark, Bool.and_false, Bool.false_eq_true, if_false, hsharp]
    rfl
  rw [hstep]
  cases hflow : s.inFlow with
  | true => exact ⟨s.keyAllowed, fun _ => rfl, by simp⟩
  | false => exact ⟨true, nofun, by simp⟩

/-- Where a scan stands once a gap is behind it. A tab ends the gap outside of brackets, but then no token comes. -/
theorem skipToToken_spec {n : Nat} (hsolid : Solid (skipSpace s.cursor.rest)) (hfuel : s.cursor.rest.length < n) :
    ∃ c b, skipToToken n s = { s with cursor := c, keyAllowed := b } ∧
      (c.rest = skipSpace s.cursor.rest ∨ c.rest.head? = some '\t') ∧ s.cursor.line ≤ c.line ∧
      (s.inFlow = true → b = s.keyAllowed) := by
  induction n generalizing s with
  | zero => cases hfuel
  | succ n ih =>
      obtain ⟨b, hb, hstep⟩ := skipToToken_succ (n := n) hsolid
      have hskip := skipSpace_skips s
      have hlength : (s.cursor.skipWhile s.skips).rest.length ≤ s.cursor.rest.length := by
        rw [skipWhile_rest]
        exact (List.dropWhile_suffix _).length_le
      have hline₀ : (s.cursor.skipWhile s.skips).line = s.cursor.line := rfl
      rw [hstep]
      generalize hc₀ : s.cursor.skipWhile s.skips = c at hskip hlength hline₀ ⊢
      cases hc : c.rest with
      | nil =>
          have hsees : c.sees isBreak = false := by simp [Cursor.sees, hc]
          rw [hsees]
          exact ⟨c, s.keyAllowed, rfl, .inl (by rw [← hskip, hc]; rfl), hline₀.ge, fun _ => rfl⟩
      | cons a u =>
          rw [show c.sees isBreak = isBreak a by simp [Cursor.sees, hc]]
          cases hbreak : isBreak a with
          | true =>
              have hspace : isSpace a = true := Solid.isSpace (hc ▸ hskip ▸ hsolid) hbreak
              obtain ⟨hnext, hline, hless⟩ := skipLine_space hc hbreak hspace
              obtain ⟨c', b', heq, hto, hline', hallowed'⟩ :=
                ih (s := { s with cursor := c.skipLine.2, keyAllowed := b }) (by rwa [hnext, hskip])
                  (by simp only; omega)
              refine ⟨c', b', heq, ?_, ?_, fun h => (hallowed' h).trans (hb h)⟩
              · rwa [hnext, hskip] at hto
              · exact hline₀ ▸ (Nat.le_of_lt hline).trans hline'
          | false =>
              refine ⟨c, s.keyAllowed, rfl, ?_, hline₀.ge, fun _ => rfl⟩
              rcases head_of_skips (hc₀ ▸ hc) hbreak with hspace | rfl
              · exact .inl (by rw [← hskip, hc, skipSpace_solid hspace])
              · exact .inr (by rw [hc, List.head?_cons])

theorem inFlow_congr (h : t.outerKeys.length = s.outerKeys.length) : t.inFlow = s.inFlow := by
  rw [inFlow, inFlow]
  cases ht : t.outerKeys <;> cases hs : s.outerKeys <;> simp_all

/-- The scan with the gap in front of the next token behind it. -/
structure Follows (s t : Scan) : Prop where
  tame : t.Tame
  rest : t.cursor.rest = skipSpace s.cursor.rest
  tokens : t.tokens = s.tokens
  depth : t.outerKeys.length = s.outerKeys.length
  allowed : s.inFlow = true → t.keyAllowed = s.keyAllowed
  line : s.cursor.line ≤ t.cursor.line
  key : ∀ k ∈ t.key, k ∈ s.key ∧ t.cursor.line ≤ k.line

theorem token?_tab (hc : s.cursor.rest.head? = some '\t') : s.token? = none := by
  obtain ⟨u, hu⟩ := List.head?_eq_some_iff.1 hc
  have hmark : s.cursor.atDocumentMark = false := by simp [Cursor.atDocumentMark, hu]
  simp [token?, hu, hmark, startsPlain, isGap]

theorem Tame.next?_eq_some (h : s.Tame) (hsolid : Solid (skipSpace s.cursor.rest)) (hnext : s.fresh.next? = some s') :
    ∃ t, s.Follows t ∧ t.token? = some s' := by
  obtain ⟨c, b, hskip, hto, hline, hallowed⟩ := skipToToken_spec (s := s.fresh) hsolid (Nat.lt_succ_self _)
  let m : Scan := { s.fresh with cursor := c, keyAllowed := b }
  have hm : m.Tame := ⟨h.fresh.indent, h.fresh.key, h.fresh.outer, h.fresh.unended⟩
  rw [next?, hskip, show dropStale? { s.fresh with cursor := c, keyAllowed := b } = some m.fresh from hm.dropStale?_eq] at hnext
  simp only [Option.bind_eq_bind, Option.bind_some] at hnext
  rw [hm.fresh.unrollTo_eq (by omega)] at hnext
  refine ⟨m.fresh, ⟨hm.fresh, ?_, rfl, ?_, ?_, hline, ?_⟩, hnext⟩
  · refine hto.resolve_right fun htab => ?_
    rw [token?_tab htab] at hnext
    cases hnext
  · exact m.fresh_depth.trans s.fresh_depth
  · exact fun hflow => hallowed (by rw [inFlow_congr s.fresh_depth, hflow])
  · intro k hk
    obtain ⟨hk, hlive⟩ := Option.mem_filter_iff.1 hk
    obtain ⟨hk, -⟩ := Option.mem_filter_iff.1 hk
    refine ⟨hk, ?_⟩
    simp only [isStale, Bool.not_eq_true', Bool.or_eq_false_iff, decide_eq_false_iff_not] at hlive
    exact Nat.le_of_not_lt hlive.1

/-- The scan comes to the end of the text, with these tokens. -/
def Completes (s : Scan) (ts : List Token) : Prop := ∃ n, run n s = ts ∧ Token.streamEnd ∈ ts

theorem Tame.not_mem_settled (h : s.Tame) : Token.streamEnd ∉ s.settled := fun hmem =>
  h.unended (List.mem_reverse.1 (List.mem_of_mem_take hmem))

/-- A scan that comes to the end reads one more token, unless it is there. -/
theorem Completes.next (h : s.Completes ts) (hs : s.Tame) (hsolid : Solid (skipSpace s.cursor.rest)) :
    ∃ t s', s.Follows t ∧ t.token? = some s' ∧
      if s'.tokens.head? = some .streamEnd then ts = s'.tokens.reverse else s'.Completes ts := by
  obtain ⟨n, hrun, hend⟩ := h
  cases n with
  | zero =>
      subst hrun
      exact absurd hend hs.not_mem_settled
  | succ n =>
      rw [run, hs.dropStale?_eq] at hrun
      dsimp only at hrun
      cases hnext : s.fresh.next? with
      | none =>
          rw [hnext] at hrun
          subst hrun
          exact absurd hend hs.fresh.not_mem_settled
      | some s' =>
          obtain ⟨t, hfollows, htoken⟩ := hs.next?_eq_some hsolid hnext
          refine ⟨t, s', hfollows, htoken, ?_⟩
          rw [hnext] at hrun
          dsimp only at hrun
          split at hrun
          · next hlast =>
              rw [if_pos hlast]
              exact hrun.symm
          · next hmore =>
              rw [if_neg hmore]
              exact ⟨n, hrun, hend⟩

/-- A later scan: the text before `r` has brought these tokens. -/
structure Lays (s : Scan) (ts : List Token) (r : List Char) (s' : Scan) : Prop where
  tame : s'.Tame
  rest : skipSpace s'.cursor.rest = skipSpace r
  tokens : s'.tokens = ts.reverse ++ s.tokens

theorem Lays.trans {s'' : Scan} {ts' : List Token} {r' : List Char} (h : s.Lays ts r s') (h' : s'.Lays ts' r' s'') :
    s.Lays (ts ++ ts') r' s'' :=
  ⟨h'.tame, h'.rest, by rw [h'.tokens, h.tokens, List.reverse_append, List.append_assoc]⟩

/-- The scan with a mark for a key right here, if one may stand here. -/
def noted (s : Scan) : Scan :=
  if s.keyAllowed then
    { s with key := some ⟨false, s.tokens.length, s.cursor.line, s.cursor.index, s.cursor.column⟩ }
  else s

theorem noted_tokens (s : Scan) : s.noted.tokens = s.tokens := by
  rw [noted]
  split <;> rfl

theorem noted_cursor (s : Scan) : s.noted.cursor = s.cursor := by
  rw [noted]
  split <;> rfl

theorem noted_outerKeys (s : Scan) : s.noted.outerKeys = s.outerKeys := by
  rw [noted]
  split <;> rfl

theorem Tame.noted (h : s.Tame) : s.noted.Tame := by
  rw [Scan.noted]
  split
  · exact ⟨h.indent, by simp, h.outer, h.unended⟩
  · exact h

theorem solid_cons (h : a ≠ '#' ∧ a ≠ '\uFEFF' ∧ isBreak a = false) (u : List Char) : Solid (a :: u) := by
  rintro b hb
  cases hb
  exact h

theorem atDocumentMark_eq_false {c : Cursor} (hc : c.rest = a :: u) (ha : a ≠ '-' ∧ a ≠ '.') :
    c.atDocumentMark = false := by
  simp [Cursor.atDocumentMark, hc, ha.1.symm, ha.2.symm]

/-- Brackets that open, each with its token. -/
def openings : List (Char × Token) := [('[', .flowSequence), ('{', .flowMapping)]

def closings : List (Char × Token) := [(']', .flowSequenceEnd), ('}', .flowMappingEnd)]

theorem Tame.openFlow? (h : s.Tame) (htok : tok ≠ .streamEnd) : ∃ s', s.openFlow? tok = some s' ∧
    s.Lays [tok] s.cursor.skip.rest s' ∧ s'.outerKeys.length = s.outerKeys.length + 1 ∧ s'.keyAllowed = true := by
  have hnote : s.noteKey? = some s.noted := h.noteKey?_eq
  rw [Scan.openFlow?, hnote]
  refine ⟨_, rfl, ⟨⟨h.noted.indent, by simp [allowKey, Scan.skip, push], ?_, ?_⟩, ?_, ?_⟩, ?_, rfl⟩
  · intro o ho k hk
    rcases List.mem_cons.1 ho with rfl | ho
    · exact h.noted.key k hk
    · exact h.noted.outer o ho k hk
  · simp [allowKey, Scan.skip, push, noted_tokens, h.unended, htok.symm]
  · simp [allowKey, Scan.skip, push, noted_cursor]
  · simp [allowKey, Scan.skip, push, noted_tokens]
  · simp [allowKey, Scan.skip, push, noted_outerKeys]

theorem Tame.closeFlow? (h : s.Tame) (hflow : s.inFlow = true) (htok : tok ≠ .streamEnd) :
    ∃ s', s.closeFlow? tok = some s' ∧ s.Lays [tok] s.cursor.skip.rest s' ∧
      s'.outerKeys.length + 1 = s.outerKeys.length := by
  rw [Scan.closeFlow?, h.forgetKey?_eq]
  cases houter : s.outerKeys with
  | nil => simp [inFlow, houter] at hflow
  | cons k l =>
      have hall := h.outer
      rw [houter] at hall
      simp only [Option.bind_eq_bind, Option.bind_some]
      refine ⟨_, rfl, ⟨⟨h.indent, hall k List.mem_cons_self, fun o ho => hall o (List.mem_cons_of_mem k ho), ?_⟩, rfl, ?_⟩, rfl⟩
      · simp [allowKey, Scan.skip, push, h.unended, htok.symm]
      · simp [allowKey, Scan.skip, push]

/-- One token further. -/
theorem Completes.lexeme (h : s.Completes ts) (hs : s.Tame) (hsolid : Solid (skipSpace s.cursor.rest)) :
    ∃ t s', s.Follows t ∧ t.token? = some s' ∧ (s'.tokens.head? ≠ some .streamEnd → s'.Completes ts) := by
  obtain ⟨t, s', hfollows, htoken, hrest⟩ := h.next hs hsolid
  exact ⟨t, s', hfollows, htoken, fun hmore => by rwa [if_neg hmore] at hrest⟩

theorem Follows.lays (h : s.Follows t) (h' : t.Lays ts r s') : s.Lays ts r s' :=
  ⟨h'.tame, h'.rest, by rw [h'.tokens, h.tokens]⟩

theorem Lays.head?_ne (h : s.Lays [tok] r s') (htok : tok ≠ .streamEnd) : s'.tokens.head? ≠ some .streamEnd := by
  rw [h.tokens]
  simpa using htok

theorem Completes.opening (h : s.Completes ts) (hs : s.Tame) (ha : (a, tok) ∈ openings)
    (hc : skipSpace s.cursor.rest = a :: u) :
    ∃ s', s'.Completes ts ∧ s.Lays [tok] u s' ∧ s'.outerKeys.length = s.outerKeys.length + 1 ∧ s'.keyAllowed = true := by
  have hopen : ∀ p ∈ openings, (p.1 ≠ '#' ∧ p.1 ≠ '\uFEFF' ∧ isBreak p.1 = false) ∧ p.2 ≠ .streamEnd := by decide
  obtain ⟨hsolid, htok⟩ := hopen _ ha
  obtain ⟨t, s', hfollows, htoken, hmore⟩ := h.lexeme hs (hc ▸ solid_cons hsolid u)
  have hrest : t.cursor.rest = a :: u := hfollows.rest.trans hc
  have hread : t.token? = t.openFlow? tok := by
    simp only [openings, List.mem_cons, Prod.mk.injEq, List.not_mem_nil, or_false] at ha
    rcases ha with ⟨rfl, rfl⟩ | ⟨rfl, rfl⟩ <;>
      simp [token?, hrest, atDocumentMark_eq_false hrest (by decide)]
  obtain ⟨s₁, heq, hlays, hdepth, hallowed⟩ := hfollows.tame.openFlow? htok
  cases htoken.symm.trans (hread.trans heq)
  rw [skip_rest hrest] at hlays
  exact ⟨s', hmore (hlays.head?_ne htok), hfollows.lays hlays, by rw [hdepth, hfollows.depth], hallowed⟩

theorem Completes.closing (h : s.Completes ts) (hs : s.Tame) (hflow : s.inFlow = true) (ha : (a, tok) ∈ closings)
    (hc : skipSpace s.cursor.rest = a :: u) :
    ∃ s', s'.Completes ts ∧ s.Lays [tok] u s' ∧ s'.outerKeys.length + 1 = s.outerKeys.length := by
  have hclose : ∀ p ∈ closings, (p.1 ≠ '#' ∧ p.1 ≠ '\uFEFF' ∧ isBreak p.1 = false) ∧ p.2 ≠ .streamEnd := by decide
  obtain ⟨hsolid, htok⟩ := hclose _ ha
  obtain ⟨t, s', hfollows, htoken, hmore⟩ := h.lexeme hs (hc ▸ solid_cons hsolid u)
  have hrest : t.cursor.rest = a :: u := hfollows.rest.trans hc
  have hread : t.token? = t.closeFlow? tok := by
    simp only [closings, List.mem_cons, Prod.mk.injEq, List.not_mem_nil, or_false] at ha
    rcases ha with ⟨rfl, rfl⟩ | ⟨rfl, rfl⟩ <;>
      simp [token?, hrest, atDocumentMark_eq_false hrest (by decide)]
  obtain ⟨s₁, heq, hlays, hdepth⟩ := hfollows.tame.closeFlow? (by rw [inFlow_congr hfollows.depth, hflow]) htok
  cases htoken.symm.trans (hread.trans heq)
  rw [skip_rest hrest] at hlays
  exact ⟨s', hmore (hlays.head?_ne htok), hfollows.lays hlays, by rw [hdepth, hfollows.depth]⟩

theorem Completes.separator (h : s.Completes ts) (hs : s.Tame) (hc : skipSpace s.cursor.rest = ',' :: u) :
    ∃ s', s'.Completes ts ∧ s.Lays [.flowEntry] u s' ∧ s'.outerKeys.length = s.outerKeys.length ∧ s'.keyAllowed = true := by
  obtain ⟨t, s', hfollows, htoken, hmore⟩ := h.lexeme hs (hc ▸ solid_cons (by decide) u)
  have hrest : t.cursor.rest = ',' :: u := hfollows.rest.trans hc
  have hread : t.token? = some ((({ t with key := none } : Scan).allowKey true).skip.push .flowEntry) := by
    simp [token?, hrest, atDocumentMark_eq_false hrest (by decide), hfollows.tame.forgetKey?_eq]
  cases htoken.symm.trans hread
  have hlays : t.Lays [.flowEntry] u ((({ t with key := none } : Scan).allowKey true).skip.push .flowEntry) := by
    refine ⟨⟨hfollows.tame.indent, by simp [allowKey, Scan.skip, push], hfollows.tame.outer, ?_⟩, ?_, rfl⟩
    · simp [allowKey, Scan.skip, push, hfollows.tame.unended]
    · simp [allowKey, Scan.skip, push, skip_rest hrest]
  exact ⟨_, hmore (hlays.head?_ne (by simp)), hfollows.lays hlays, hfollows.depth, rfl⟩

/-- A string that may be a key is marked as one, and says what it says in JSON if no line ends in it. -/
theorem Completes.quoted {body : List Char} (h : s.Completes ts) (hs : s.Tame) (hbody : IsBody body)
    (hc : skipSpace s.cursor.rest = '"' :: (body ++ '"' :: r)) :
    ∃ text s', s'.Completes ts ∧ s.Lays [.scalar (String.ofList text) .quoted] r s' ∧
      s'.outerKeys.length = s.outerKeys.length ∧ ((∀ a ∈ body, isBreak a = false) → Says body text) ∧
      (s.inFlow = true → s.keyAllowed = true → ∃ k, s'.key = some k ∧ k.number = s.tokens.length ∧
        k.line ≤ s'.cursor.line ∧ (s'.cursor.line = k.line → Says body text)) := by
  obtain ⟨t, s', hfollows, htoken, hmore⟩ := h.lexeme hs (hc ▸ solid_cons (by decide) _)
  have hrest : t.cursor.rest = '"' :: (body ++ '"' :: r) := hfollows.rest.trans hc
  have hread : t.token? = t.quoted? '"' := by
    simp [token?, hrest, atDocumentMark_eq_false hrest (by decide)]
  have hnote : t.noteKey? = some t.noted := hfollows.tame.noteKey?_eq
  rw [hread, quoted?, keyToken?, hnote] at htoken
  simp only [Option.bind_eq_bind, Option.bind_some, Option.bind_assoc, Option.bind_eq_some_iff, noted_cursor] at htoken
  obtain ⟨⟨text, c⟩, hscalar, heq⟩ := htoken
  cases heq
  obtain ⟨hto, hline, hunbroken, hsaid⟩ := quotedScalar_body (skip_rest hrest) hbody rfl rfl hscalar
  rw [skip_line] at hline hunbroken hsaid
  have hlays : t.Lays [.scalar (String.ofList text) .quoted] r
      (({ t.noted with cursor := c }.allowKey false).push (.scalar (String.ofList text) .quoted)) := by
    refine ⟨⟨hfollows.tame.noted.indent, hfollows.tame.noted.key, hfollows.tame.noted.outer, ?_⟩, ?_, ?_⟩
    · simp [allowKey, push, noted_tokens, hfollows.tame.unended]
    · simp [allowKey, push, hto]
    · simp [allowKey, push, noted_tokens]
  have hsame (h : c.line = t.cursor.line) : Says body text := by
    obtain ⟨v, hv, rfl⟩ := hsaid h
    exact hv
  refine ⟨text, _, hmore (hlays.head?_ne (by simp)), hfollows.lays hlays, ?_, fun hall => hsame (hunbroken hall),
    fun hflow hallowed => ?_⟩
  · simp [allowKey, push, noted_outerKeys, hfollows.depth]
  · rw [← hfollows.allowed hflow] at hallowed
    refine ⟨⟨false, t.tokens.length, t.cursor.line, t.cursor.index, t.cursor.column⟩, ?_, by simp [hfollows.tokens], hline, hsame⟩
    simp [allowKey, push, noted, hallowed]

theorem roll_of_inFlow (h : s.inFlow = true) (column : Nat) (number : Option Nat) : s.roll column number tok = s := by
  rw [roll, h]
  rfl

/-- A colon makes a key of the string in front of it, if the mark for it is still there. -/
theorem Completes.colon {k : KeyMark} (h : s.Completes ts) (hs : s.Tame) (hflow : s.inFlow = true)
    (hkey : s.key = some k) (hnumber : k.number + 1 = s.tokens.length) (hline : k.line ≤ s.cursor.line)
    (hc : skipSpace s.cursor.rest = ':' :: u) : ∃ s' : Scan, s'.Completes ts ∧ s'.Tame ∧ skipSpace s'.cursor.rest = skipSpace u ∧
      s'.outerKeys.length = s.outerKeys.length ∧ (s'.tokens = .value :: s.tokens ∨
        s.cursor.line = k.line ∧ ∃ tok l, s.tokens = tok :: l ∧ s'.tokens = .value :: tok :: .key :: l) := by
  obtain ⟨t, s', hfollows, htoken, hmore⟩ := h.lexeme hs (hc ▸ solid_cons (by decide) u)
  have hrest : t.cursor.rest = ':' :: u := hfollows.rest.trans hc
  have hflow' : t.inFlow = true := by rw [inFlow_congr hfollows.depth, hflow]
  have hread : t.token? = t.value? := by
    simp [token?, hrest, atDocumentMark_eq_false hrest (by decide), hflow']
  obtain ⟨tok, l, htokens⟩ := List.exists_cons_of_length_eq_add_one hnumber.symm
  have htame (v : Scan) (hv : v.indent = t.indent) (houter : v.outerKeys = t.outerKeys) (hkey : v.key = none)
      (hunended : Token.streamEnd ∉ v.tokens) : v.Tame :=
    ⟨hv.trans hfollows.tame.indent, by simp [hkey], houter ▸ hfollows.tame.outer, hunended⟩
  have hunended := hfollows.tame.unended
  rw [hfollows.tokens, htokens] at hunended
  cases hmark : t.key with
  | none =>
      rw [hread, value?, hmark] at htoken
      simp only [hflow', Bool.not_true, Bool.false_and, Bool.false_eq_true, if_false, roll_of_inFlow hflow'] at htoken
      cases htoken
      refine ⟨_, hmore (by simp [push]), htame _ rfl rfl hmark ?_, ?_, hfollows.depth, .inl ?_⟩
      · simpa [allowKey, Scan.skip, push, hfollows.tokens, htokens] using hunended
      · simp [allowKey, Scan.skip, push, skip_rest hrest]
      · simp [allowKey, Scan.skip, push, hfollows.tokens]
  | some k' =>
      obtain ⟨hk, hk'⟩ := hfollows.key k' hmark
      cases hkey.symm.trans hk
      have hinsert : (t.insert k.number .key).roll k.column (some k.number) .blockMapping =
          { t with tokens := tok :: .key :: l } := by
        have hone : t.tokens.length - k.number = 1 := by rw [hfollows.tokens]; omega
        rw [insert, hone, hfollows.tokens, htokens]
        exact roll_of_inFlow (s := { t with tokens := tok :: .key :: l }) hflow' _ _
      rw [hread, value?, hmark] at htoken
      simp only [hinsert] at htoken
      cases htoken
      refine ⟨_, hmore (by simp [push]), htame _ rfl rfl rfl ?_, ?_, hfollows.depth, .inr ⟨?_, tok, l, htokens, rfl⟩⟩
      · simpa [allowKey, Scan.skip, push] using hunended
      · simp [allowKey, Scan.skip, push, skip_rest hrest]
      · exact le_antisymm (hfollows.line.trans hk') hline

theorem Completes.plain {text : List Char} (h : s.Completes ts) (hs : s.Tame) (htext : IsBare text)
    (hr : Closes s.inFlow (skipSpace r)) (hc : skipSpace s.cursor.rest = text ++ r) :
    ∃ s', s'.Completes ts ∧ s.Lays [.scalar (String.ofList text) .plain] r s' ∧
      s'.outerKeys.length = s.outerKeys.length := by
  obtain ⟨a, u, htext', hhead⟩ := head_of_isBare htext
  have hcalm {b : Char} (hb : b ∈ text) := isCalm_iff.1 (calm_of_isBare htext b hb)
  obtain ⟨hgap, hbreak, -, -, hsharp⟩ := hcalm (b := a) (by simp [htext'])
  obtain ⟨t, s', hfollows, htoken, hmore⟩ :=
    h.lexeme hs (by rw [hc, htext']; exact solid_cons ⟨hsharp.1, hsharp.2, hbreak⟩ _)
  have hrest : t.cursor.rest = text ++ r := hfollows.rest.trans hc
  have hflow : t.inFlow = s.inFlow := inFlow_congr hfollows.depth
  have hread : t.cursor.atDocumentMark = false ∧ t.token? = t.plain? := by
    rw [htext'] at hrest
    rcases hhead with hinitial | ⟨rfl, b, v, rfl, hb⟩
    · simp only [isInitial, indicators, List.contains_cons, List.contains_nil, Bool.or_false, Bool.not_or, Bool.and_eq_true,
        Bool.not_eq_true', beq_eq_false_iff_ne, decide_eq_true_eq] at hinitial
      have hmark := atDocumentMark_eq_false hrest ⟨by simp_all, by simp_all⟩
      refine ⟨hmark, ?_⟩
      simp [token?, hrest, hmark, hinitial, startsPlain, indicators, hgap]
    · obtain ⟨hgap', hbreak', -, -, -⟩ := hcalm (b := b) (by simp [htext'])
      have hdash : b ≠ '-' := ne_of_isDigit hb (by decide)
      have hmark : t.cursor.atDocumentMark = false := by simp [Cursor.atDocumentMark, hrest, hdash.symm]
      refine ⟨hmark, ?_⟩
      simp [token?, hrest, hmark, startsPlain, Cursor.opensAt, Cursor.seesAt, hgap', hbreak']
  have hnote : t.noteKey? = some t.noted := hfollows.tame.noteKey?_eq
  rw [hread.2, plain?, hnote] at htoken
  simp only [Option.bind_eq_bind, Option.bind_some, Option.bind_eq_some_iff, noted_cursor] at htoken
  obtain ⟨⟨f, c⟩, hscalar, heq⟩ := htoken
  cases heq
  have hnoted : t.noted.inFlow = s.inFlow := (inFlow_congr (by rw [noted_outerKeys])).trans hflow
  rw [hnoted] at hscalar
  obtain ⟨hto, hskip⟩ := plainScalar_bare hrest htext hread.1 hr hscalar
  have hlays : t.Lays [.scalar (String.ofList text) .plain] r
      (({ t.noted with cursor := c }.allowKey f.broken).push (.scalar (String.ofList f.text.reverse) .plain)) := by
    refine ⟨⟨hfollows.tame.noted.indent, hfollows.tame.noted.key, hfollows.tame.noted.outer, ?_⟩, hskip, ?_⟩
    · simp [allowKey, push, noted_tokens, hfollows.tame.unended]
    · simp [allowKey, push, noted_tokens, hto]
  refine ⟨_, hmore (hlays.head?_ne (by simp)), hfollows.lays hlays, ?_⟩
  simp [allowKey, push, noted_outerKeys, hfollows.depth]

theorem Completes.ending (h : s.Completes ts) (hs : s.Tame) (hc : skipSpace s.cursor.rest = []) :
    ts = s.tokens.reverse ++ [.streamEnd] := by
  obtain ⟨t, s', hfollows, htoken, hlast⟩ := h.next hs (by rw [hc]; rintro _ ⟨⟩)
  have hrest : t.cursor.rest = [] := hfollows.rest.trans hc
  have hread : t.token? = some ((({ t with key := none } : Scan).allowKey false).push .streamEnd) := by
    simp [token?, hrest, outermost?, hfollows.tame.unrollTo_eq, hfollows.tame.forgetKey?_eq]
  cases htoken.symm.trans hread
  rw [if_pos (by simp [push])] at hlast
  simpa [allowKey, push, hfollows.tokens] using hlast

end Scan

/-- The tokens of the parts of a document. A key whose colon stands on another line is not told from a value. -/
inductive Tokens : Part → List Token → Prop
  | bare {text} (htext : IsBare text) : Tokens (.value (.bare text)) [.scalar (String.ofList text) .plain]
  | quoted {body text} (hsaid : (∀ a ∈ body, isBreak a = false) → Says body text) :
      Tokens (.value (.quoted body)) [.scalar (String.ofList text) .quoted]
  | list {l ts} (hl : Tokens (.items l) ts) : Tokens (.value (.list l)) (.flowSequence :: (ts ++ [.flowSequenceEnd]))
  | object {l ts} (hl : Tokens (.fields l) ts) : Tokens (.value (.object l)) (.flowMapping :: (ts ++ [.flowMappingEnd]))
  | item {d ts} (hd : Tokens (.value d) ts) : Tokens (.item d) ts
  | noItems : Tokens (.items []) []
  | lastItem {d ts} (hd : Tokens (.item d) ts) : Tokens (.items [d]) ts
  | items {d e l ts ts'} (hd : Tokens (.item d) ts) (hl : Tokens (.items (e :: l)) ts') :
      Tokens (.items (d :: e :: l)) (ts ++ .flowEntry :: ts')
  | field {key d text ts} (hsaid : Says key text) (hd : Tokens (.item d) ts) :
      Tokens (.field key d) (.key :: .scalar (String.ofList text) .quoted :: .value :: ts)
  | stray {key d text ts} (hd : Tokens (.item d) ts) : Tokens (.field key d) (.scalar text .quoted :: .value :: ts)
  | noFields : Tokens (.fields []) []
  | lastField {key d ts} (hd : Tokens (.field key d) ts) : Tokens (.fields [(key, d)]) ts
  | fields {key d e l ts ts'} (hd : Tokens (.field key d) ts) (hl : Tokens (.fields (e :: l)) ts') :
      Tokens (.fields ((key, d) :: e :: l)) (ts ++ .flowEntry :: ts')

namespace Scan

variable {s : Scan} {ts : List Token} {p : Part} {u r : List Char}

/-- Where a part may begin. -/
def Opens (s : Scan) : Part → Prop
  | .value _ | .item _ => True
  | .items _ => s.inFlow = true
  | .field _ _ | .fields _ => s.inFlow = true ∧ s.keyAllowed = true

theorem skipSpace_bare {text : List Char} (h : IsBare text) (r : List Char) : skipSpace (text ++ r) = text ++ r := by
  obtain ⟨a, v, htext, -⟩ := head_of_isBare h
  obtain ⟨hgap, hbreak, -⟩ := isCalm_iff.1 (calm_of_isBare h a (by simp [htext]))
  rw [htext]
  exact skipSpace_solid (isSpace_eq_false hgap hbreak) _

theorem inFlow_iff : s.inFlow = true ↔ 0 < s.outerKeys.length := by
  cases h : s.outerKeys <;> simp [inFlow, h]

/-- A pair of brackets around what the scan lays down once they are open. -/
theorem Completes.brackets {a b : Char} {before after : Token} {P : List Token → Prop} (ha : (a, before) ∈ openings)
    (hb : (b, after) ∈ closings) (hs : s.Tame) (hc : skipSpace s.cursor.rest = skipSpace (a :: u))
    (hcompletes : s.Completes ts) (hinner : ∀ m : Scan, m.Tame → skipSpace m.cursor.rest = skipSpace u → m.inFlow = true →
      m.keyAllowed = true → m.Completes ts → ∃ l m', P l ∧ m'.Completes ts ∧ m.Lays l (b :: r) m' ∧
        m'.outerKeys.length = m.outerKeys.length) :
    ∃ l s', P l ∧ s'.Completes ts ∧ s.Lays (before :: (l ++ [after])) r s' ∧
      s'.outerKeys.length = s.outerKeys.length := by
  have hopen : ∀ q ∈ openings, isSpace q.1 = false := by decide
  have hclose : ∀ q ∈ closings, isSpace q.1 = false := by decide
  obtain ⟨m, hm, hlays, hdepth, hallowed⟩ := hcompletes.opening hs ha (hc.trans (skipSpace_solid (hopen _ ha) u))
  obtain ⟨l, m', hl, hm', hlays', hdepth'⟩ :=
    hinner m hlays.tame hlays.rest (inFlow_iff.2 (by omega)) hallowed hm
  obtain ⟨s', hs', hlays'', hdepth''⟩ := hm'.closing hlays'.tame (inFlow_iff.2 (by omega)) hb
    (hlays'.rest.trans (skipSpace_solid (hclose _ hb) r))
  exact ⟨l, s', hl, hs', hlays.trans (hlays'.trans hlays''), by omega⟩

/-- A scan that comes to the end lays down the tokens of each part it comes to. -/
theorem Completes.part (h : Spells p u r) (hs : s.Tame) (hc : skipSpace s.cursor.rest = skipSpace u)
    (hopens : s.Opens p) (hr : Closes s.inFlow (skipSpace r)) (hcompletes : s.Completes ts) :
    ∃ l s', Tokens p l ∧ s'.Completes ts ∧ s.Lays l r s' ∧ s'.outerKeys.length = s.outerKeys.length := by
  have hcloses {a : Char} (v : List Char) (ha : a = ',' ∨ a = ']' ∨ a = '}') : Closes true (skipSpace (a :: v)) := by
    rw [skipSpace_solid (by rcases ha with rfl | rfl | rfl <;> rfl)]
    exact ⟨a, v, rfl, ha⟩
  induction h generalizing s with
  | bare ht =>
      obtain ⟨s', hs', hlays, hdepth⟩ := hcompletes.plain hs ht hr (hc.trans (skipSpace_bare ht _))
      exact ⟨_, s', .bare ht, hs', hlays, hdepth⟩
  | quoted hbody =>
      obtain ⟨text, s', hs', hlays, hdepth, hsaid, -⟩ := hcompletes.quoted hs hbody (hc.trans (skipSpace_solid rfl _))
      exact ⟨_, s', .quoted hsaid, hs', hlays, hdepth⟩
  | list hl ih =>
      obtain ⟨l, s', hl, hrest⟩ := hcompletes.brackets (P := Tokens (.items _))
        (show ('[', .flowSequence) ∈ openings by decide) (show (']', .flowSequenceEnd) ∈ closings by decide) hs hc
        fun m hm hto hflow _ hdone => ih hm hto hflow (hflow ▸ hcloses _ (.inr (.inl rfl))) hdone
      exact ⟨_, s', .list hl, hrest⟩
  | object hl ih =>
      obtain ⟨l, s', hl, hrest⟩ := hcompletes.brackets (P := Tokens (.fields _))
        (show ('{', .flowMapping) ∈ openings by decide) (show ('}', .flowMappingEnd) ∈ closings by decide) hs hc
        fun m hm hto hflow hallowed hdone => ih hm hto ⟨hflow, hallowed⟩ (hflow ▸ hcloses _ (.inr (.inr rfl))) hdone
      exact ⟨_, s', .object hl, hrest⟩
  | item hbefore hd hafter ih =>
      obtain ⟨l, s', hl, hs', hlays, hdepth⟩ :=
        ih hs (hc.trans (skipSpace_gap hbefore)) trivial (by rwa [skipSpace_gap hafter]) hcompletes
      exact ⟨l, s', .item hl, hs', ⟨hlays.tame, hlays.rest.trans (skipSpace_gap hafter), hlays.tokens⟩, hdepth⟩
  | noItems hgap => exact ⟨[], s, .noItems, hcompletes, ⟨hs, hc.trans (skipSpace_gap hgap), rfl⟩, rfl⟩
  | lastItem hd ih =>
      obtain ⟨l, s', hl, hrest⟩ := ih hs hc trivial hr hcompletes
      exact ⟨l, s', .lastItem hl, hrest⟩
  | items hd hl ihd ihl =>
      have hflow : s.inFlow = true := hopens
      obtain ⟨l, m, hl, hm, hlays, hdepth⟩ := ihd hs hc trivial (hflow ▸ hcloses _ (.inl rfl)) hcompletes
      obtain ⟨m', hm', hlays', hdepth', -⟩ := hm.separator hlays.tame (hlays.rest.trans (skipSpace_solid rfl _))
      have hflow' : m'.inFlow = s.inFlow := inFlow_congr (hdepth'.trans hdepth)
      obtain ⟨l', s', hl', hs', hlays'', hdepth''⟩ :=
        ihl hlays'.tame hlays'.rest (hflow'.trans hflow) (hflow' ▸ hr) hm'
      exact ⟨_, s', .items hl hl', hs', hlays.trans (hlays'.trans hlays''), by omega⟩
  | field hbefore hkey hcolon hd ih =>
      obtain ⟨hflow, hallowed⟩ : s.inFlow = true ∧ s.keyAllowed = true := hopens
      obtain ⟨text, m, hm, hlays, hdepth, -, hmarked⟩ := hcompletes.quoted hs hkey
        (hc.trans ((skipSpace_gap hbefore).trans (skipSpace_solid rfl _)))
      obtain ⟨k, hk, hnumber, hline, hsaid⟩ := hmarked hflow hallowed
      have hflow' : m.inFlow = s.inFlow := inFlow_congr hdepth
      obtain ⟨m', hm', htame, hto, hdepth', htokens⟩ := hm.colon hlays.tame (hflow'.trans hflow) hk
        (by rw [hlays.tokens, hnumber]; rfl) hline
        (hlays.rest.trans ((skipSpace_gap hcolon).trans (skipSpace_solid rfl _)))
      have hflow'' : m'.inFlow = s.inFlow := inFlow_congr (hdepth'.trans hdepth)
      obtain ⟨l, s', hl, hs', hlays', hdepth''⟩ := ih htame hto trivial (hflow'' ▸ hr) hm'
      rw [hlays.tokens] at htokens
      rcases htokens with hstray | ⟨hsame, tok, v, heq, hmarked⟩
      · refine ⟨.scalar (String.ofList text) .quoted :: .value :: l, s', .stray hl, hs', ⟨hlays'.tame, hlays'.rest, ?_⟩, by omega⟩
        rw [hlays'.tokens, hstray]
        simp
      · cases heq
        refine ⟨_, s', .field (hsaid hsame) hl, hs', ⟨hlays'.tame, hlays'.rest, ?_⟩, by omega⟩
        rw [hlays'.tokens, hmarked]
        simp
  | noFields hgap => exact ⟨[], s, .noFields, hcompletes, ⟨hs, hc.trans (skipSpace_gap hgap), rfl⟩, rfl⟩
  | lastField hd ih =>
      obtain ⟨l, s', hl, hrest⟩ := ih hs hc hopens hr hcompletes
      exact ⟨l, s', .lastField hl, hrest⟩
  | fields hd hl ihd ihl =>
      have hflow : s.inFlow = true := hopens.1
      obtain ⟨l, m, hl, hm, hlays, hdepth⟩ := ihd hs hc hopens (hflow ▸ hcloses _ (.inl rfl)) hcompletes
      obtain ⟨m', hm', hlays', hdepth', hallowed⟩ := hm.separator hlays.tame (hlays.rest.trans (skipSpace_solid rfl _))
      have hflow' : m'.inFlow = s.inFlow := inFlow_congr (hdepth'.trans hdepth)
      obtain ⟨l', s', hl', hs', hlays'', hdepth''⟩ :=
        ihl hlays'.tame hlays'.rest ⟨hflow'.trans hflow, hallowed⟩ (hflow' ▸ hr) hm'
      exact ⟨_, s', .fields hl hl', hs', hlays.trans (hlays'.trans hlays''), by omega⟩

end Scan

/-- The tokens of a document, if the scan comes to its end. -/
theorem Token.ofText_document {text : String} {d : Written} (h : IsDocument text d)
    (hend : Token.streamEnd ∈ Token.ofText text) :
    ∃ l, Tokens (.item d) l ∧ Token.ofText text = l ++ [.streamEnd] := by
  have hrun : (Scan.start text.toList).Completes (Token.ofText text) := by
    refine ⟨text.toList.length + 2, ?_, hend⟩
    rw [Token.ofText] at hend ⊢
    split
    · rfl
    · next hall =>
        rw [if_neg hall] at hend
        cases hend
  obtain ⟨l, s', hl, hs', hlays, -⟩ := hrun.part h (Scan.tame_start _) rfl trivial rfl
  refine ⟨l, hl, ?_⟩
  rw [hs'.ending hlays.tame hlays.rest, hlays.tokens]
  simp [Scan.start]

end SiteTree.Yaml
