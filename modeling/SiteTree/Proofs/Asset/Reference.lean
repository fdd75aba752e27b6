import Mathlib.Data.List.TakeWhile
import SiteTree.Asset.Reference
import SiteTree.Proofs.Text.Split

/-!
Where a text is cut into references: a quoted string that is apart from all other known ones is
taken as a whole, and what stands before and after it is rewritten as if it stood alone. A stray
quote of the other kind hides nothing that follows it.
-/

namespace SiteTree.Asset

open Text

variable {renames : Renames} {q c : Char} {s t v r pre post body rest : List Char}

theorem quoted?_eq_some : quoted? q s = some (body, rest) ↔ s = body ++ q :: rest ∧ q ∉ body ∧ '\n' ∉ body := by
  have hstop : ∀ {b : List Char}, q ∉ b → '\n' ∉ b → ∀ d ∈ b, (fun d => d ≠ q && d ≠ '\n') d = true := by
    intro b hq hn d hd
    simp only [Bool.and_eq_true, decide_eq_true_eq]
    exact ⟨fun h => hq (h ▸ hd), fun h => hn (h ▸ hd)⟩
  constructor
  · intro h
    have hs := List.takeWhile_append_dropWhile (p := fun d => d ≠ q && d ≠ '\n') (l := s)
    have hall : ∀ d ∈ s.takeWhile (fun d => d ≠ q && d ≠ '\n'), d ≠ q ∧ d ≠ '\n' := fun d hd => by
      simpa using List.mem_takeWhile_imp hd
    rw [quoted?] at h
    split at h
    · next d r hd =>
      split at h
      · next hdq =>
        obtain ⟨hbody, rfl⟩ := Prod.mk.inj (Option.some.inj h)
        rw [hd, hdq] at hs
        rw [← hbody]
        exact ⟨hs.symm, fun hm => (hall q hm).1 rfl, fun hm => (hall '\n' hm).2 rfl⟩
      · cases h
    · cases h
  · rintro ⟨rfl, hq, hn⟩
    have hd : (body ++ q :: rest).dropWhile (fun d => d ≠ q && d ≠ '\n') = q :: rest := by
      rw [List.dropWhile_append_of_pos (hstop hq hn)]
      simp
    have ht : (body ++ q :: rest).takeWhile (fun d => d ≠ q && d ≠ '\n') = body := by
      rw [List.takeWhile_append_of_pos (hstop hq hn)]
      simp
    rw [quoted?, hd, ht]
    simp

/-- A known reference opens with the character. -/
def Opens (renames : Renames) (c : Char) (s body rest : List Char) : Prop :=
  isQuote c = true ∧ quoted? c s = some (body, rest) ∧ (Table.get? (String.ofList (bare body)) renames).isSome

theorem pieces_of_not_opens (h : ∀ body rest, ¬ Opens renames c r body rest) :
    pieces renames (c :: r) = .char c :: pieces renames r := by
  rw [pieces]
  split
  · next hc =>
    split
    · next body rest hq =>
      split
      · next new hnew => exact absurd ⟨hc, hq, by rw [hnew]; rfl⟩ (h body rest)
      · rfl
    · rfl
  · rfl

theorem pieces_of_opens (h : Opens renames c r body rest) {new : String}
    (hnew : Table.get? (String.ofList (bare body)) renames = some new) :
    pieces renames (c :: r) = .reference new.toList :: pieces renames rest := by
  obtain ⟨hc, hq, -⟩ := h
  rw [pieces, if_pos hc]
  split
  · next body' rest' hq' =>
    rw [hq] at hq'
    cases hq'
    rw [hnew]
  · next hq' => rw [hq] at hq'; cases hq'

theorem Opens.append (h : Opens renames c s body rest) (t : List Char) : Opens renames c (s ++ t) body (rest ++ t) := by
  obtain ⟨hc, hq, hnew⟩ := h
  obtain ⟨rfl, hbody⟩ := quoted?_eq_some.1 hq
  exact ⟨hc, quoted?_eq_some.2 ⟨by simp, hbody⟩, hnew⟩

theorem Opens.split (h : Opens renames c (v ++ t) body rest) (hlen : body.length < v.length) :
    ∃ v', v = body ++ c :: v' ∧ rest = v' ++ t ∧ Opens renames c v body v' := by
  obtain ⟨hc, hq, hsome⟩ := h
  obtain ⟨he, hbody⟩ := quoted?_eq_some.1 hq
  rcases List.append_eq_append_iff.1 he with ⟨a, ha, -⟩ | ⟨a, rfl, ha⟩
  · rw [ha, List.length_append] at hlen
    omega
  · cases a with
    | nil => simp at hlen
    | cons d v' =>
        obtain ⟨rfl, rfl⟩ := List.cons_eq_cons.1 ha
        exact ⟨v', rfl, rfl, hc, quoted?_eq_some.2 ⟨rfl, hbody⟩, hsome⟩

/-- A text can be cut where no known reference goes over the cut. -/
theorem pieces_append (h : ∀ u c v body rest, s = u ++ c :: v → Opens renames c (v ++ t) body rest →
    body.length < v.length) : pieces renames (s ++ t) = pieces renames s ++ pieces renames t := by
  induction hn : s.length using Nat.strong_induction_on generalizing s with
  | _ n ih =>
    cases s with
    | nil => simp [pieces]
    | cons c v =>
        rw [List.cons_append]
        by_cases hopen : ∃ body rest, Opens renames c (v ++ t) body rest
        · obtain ⟨body, rest, hopen⟩ := hopen
          obtain ⟨new, hnew⟩ := Option.isSome_iff_exists.1 hopen.2.2
          obtain ⟨v', rfl, rfl, hshort⟩ := hopen.split (h [] c v body rest rfl hopen)
          rw [pieces_of_opens hopen hnew, pieces_of_opens hshort hnew, ih v'.length ?_ ?_ rfl, List.cons_append]
          · rw [← hn, List.length_cons, List.length_append, List.length_cons]
            omega
          · rintro u d v b r rfl
            exact h (c :: body ++ c :: u) d v b r (by simp)
        · have hlong : ∀ body rest, ¬ Opens renames c (v ++ t) body rest := fun body rest ho => hopen ⟨body, rest, ho⟩
          have hshort : ∀ body rest, ¬ Opens renames c v body rest := fun body rest ho => hlong _ _ (ho.append t)
          rw [pieces_of_not_opens hlong, pieces_of_not_opens hshort, ih v.length (by simp [← hn]) ?_ rfl,
            List.cons_append]
          rintro u d v b r rfl
          exact h (c :: u) d v b r (by simp)

/-- Where no known reference opens, nothing is replaced. -/
theorem pieces_plain (h : ∀ u c v body rest, s = u ++ c :: v → ¬ Opens renames c (v ++ t) body rest) :
    pieces renames (s ++ t) = s.map Piece.char ++ pieces renames t := by
  induction s with
  | nil => rfl
  | cons c s ih =>
      rw [List.cons_append, pieces_of_not_opens (h [] c s · · rfl), ih ?_]
      · rfl
      · rintro u d v b r rfl
        exact h (c :: u) d v b r (by simp)

/-- The text with its references replaced. -/
def replaced (renames : Renames) (s : List Char) : List Char := (pieces renames s).flatMap Piece.chars

theorem flatMap_map_char (s : List Char) : (s.map Piece.char).flatMap Piece.chars = s := by
  induction s with
  | nil => rfl
  | cons c s ih => rw [List.map_cons, List.flatMap_cons, ih]; rfl

theorem replaced_of_no_reference (h : (pieces renames s).any Piece.isReference = false) : replaced renames s = s := by
  unfold replaced
  fun_induction pieces renames s with
  | case1 => rfl
  | case2 c r hc body rest hq new hn => simp [Piece.isReference] at h
  | case3 c r hc body rest hq hn ih | case4 c r hc hq ih | case5 c r hc ih =>
      have hr := ih (by simpa [Piece.isReference] using h)
      rw [List.flatMap_cons, hr]
      rfl

theorem redirected_toList (content : String) (renames : Renames) :
    (redirected content renames).toList = replaced renames content.toList := by
  rw [redirected, redirect?]
  by_cases h : (pieces renames content.toList).any Piece.isReference = true
  · rw [if_pos h]
    simp [replaced]
  · rw [if_neg h, replaced_of_no_reference (by simpa using h)]
    rfl

/-- No known reference overlaps the quoted string. -/
structure Apart (renames : Renames) (pre : List Char) (q : Char) (body post : List Char) : Prop where
  before : ∀ u c v b rest, pre = u ++ c :: v → Opens renames c (v ++ q :: (body ++ q :: post)) b rest →
    b.length < v.length
  within : ∀ u c v b rest, body ++ [q] = u ++ c :: v → ¬ Opens renames c (v ++ post) b rest

/-- A known reference becomes one in double quotes that starts with a dot, any other stays. -/
def successor (renames : Renames) (q : Char) (body : List Char) : List Char :=
  match Table.get? (String.ofList (bare body)) renames with
  | some new => '"' :: '.' :: '/' :: new.toList ++ ['"']
  | none => q :: body ++ [q]

/-- What becomes of a quoted string, and of the text around it. -/
theorem replaced_apart (h : Apart renames pre q body post) (hq : isQuote q = true) (hbody : q ∉ body)
    (hline : '
' ∉ body) : replaced renames (pre ++ q :: (body ++ q :: post)) =
      replaced renames pre ++ successor renames q body ++ replaced renames post := by
  have hquoted : quoted? q (body ++ q :: post) = some (body, post) := quoted?_eq_some.2 ⟨rfl, hbody, hline⟩
  have hself : replaced renames (q :: (body ++ q :: post)) = successor renames q body ++ replaced renames post := by
    rw [replaced, successor]
    cases hnew : Table.get? (String.ofList (bare body)) renames with
    | some new => rw [pieces_of_opens ⟨hq, hquoted, by rw [hnew]; rfl⟩ hnew]; rfl
    | none =>
        have hnone : ∀ b rest, ¬ Opens renames q (body ++ q :: post) b rest := by
          rintro b rest ⟨-, hb, hsome⟩
          rw [hquoted] at hb
          cases hb
          rw [hnew] at hsome
          cases hsome
        have hplain := pieces_plain (s := body ++ [q]) (t := post) h.within
        rw [List.append_assoc] at hplain
        rw [pieces_of_not_opens hnone, show body ++ q :: post = body ++ ([q] ++ post) from rfl, hplain,
          List.flatMap_cons, List.flatMap_append, flatMap_map_char]
        rfl
  rw [replaced, pieces_append h.before, List.flatMap_append, List.append_assoc, ← hself]
  rfl

/-- No name in the table holds a quote. -/
def QuoteFree (renames : Renames) : Prop :=
  ∀ old new, Table.get? old renames = some new → ∀ c ∈ old.toList, isQuote c = false

theorem mem_bare (h : c ∈ body) (hc : isQuote c = true) : c ∈ bare body := by
  have hdot : c ≠ '.' := by rintro rfl; cases hc
  have hslash : c ≠ '/' := by rintro rfl; cases hc
  unfold bare
  split
  · have htail := (List.mem_cons.1 h).resolve_left hdot
    exact (List.mem_cons.1 htail).resolve_left hslash
  · exact (List.mem_cons.1 h).resolve_left hslash
  · exact h

/-- A known reference holds no quote of either kind. -/
theorem QuoteFree.not_mem (h : QuoteFree renames) (ho : Opens renames c r body rest) (hq : isQuote q = true) :
    q ∉ body := by
  intro hmem
  obtain ⟨new, hnew⟩ := Option.isSome_iff_exists.1 ho.2.2
  have hplain := h _ new hnew q (by rw [String.toList_ofList]; exact mem_bare hmem hq)
  rw [hq] at hplain
  cases hplain

/-- What opens before a quote of another kind and closes behind it holds that quote, and is not known. -/
theorem pieces_stray (hkeys : QuoteFree renames) (hq : isQuote q = true) (hs : q ∉ s) (t : List Char) :
    pieces renames (s ++ q :: t) = pieces renames s ++ pieces renames (q :: t) := by
  apply pieces_append
  rintro u c v body rest rfl hopen
  have hqc : q ≠ c := by
    rintro rfl
    exact hs (by simp)
  have hbody := hkeys.not_mem hopen hq
  obtain ⟨he, -⟩ := quoted?_eq_some.1 hopen.2.1
  rcases List.append_eq_append_iff.1 he with ⟨a, rfl, ha⟩ | ⟨a, rfl, ha⟩
  · cases a with
    | nil => exact absurd (List.cons.inj ha).1 hqc
    | cons d a =>
        obtain ⟨rfl, -⟩ := List.cons.inj ha
        exact absurd (by simp) hbody
  · cases a with
    | nil => exact absurd (List.cons.inj ha).1.symm hqc
    | cons d a =>
        rw [List.length_append, List.length_cons]
        omega

theorem bare_lead {lead : String} {p : List Char} (hlead : lead ∈ ["", "./", "/"]) (hdot : ¬ ['.', '/'] <+: p)
    (hslash : ¬ ['/'] <+: p) : bare (lead.toList ++ p) = p := by
  simp only [List.mem_cons, List.not_mem_nil, or_false] at hlead
  rcases hlead with rfl | rfl | rfl
  · change bare p = p
    unfold bare
    split
    · exact absurd ⟨_, rfl⟩ hdot
    · exact absurd ⟨_, rfl⟩ hslash
    · rfl
  · rfl
  · rfl

/-- A reference in quotes that nothing before it uses is replaced, and the text on either side of it
is rewritten by itself: no quote of the other kind reaches over it. -/
theorem redirected_around_reference (hkeys : QuoteFree renames) (hq : isQuote q = true) (before lead after : String)
    (hbefore : q ∉ before.toList) (hlead : lead ∈ ["", "./", "/"]) {old new : String}
    (hnew : Table.get? old renames = some new) (hline : '\n' ∉ old.toList) (hdot : ¬ ['.', '/'] <+: old.toList)
    (hslash : ¬ ['/'] <+: old.toList) :
    redirected (before ++ q.toString ++ lead ++ old ++ q.toString ++ after) renames =
      redirected before renames ++ "\"./" ++ new ++ "\"" ++ redirected after renames := by
  have hlead' : q ∉ lead.toList ∧ '\n' ∉ lead.toList := by
    have hall : ∀ lead ∈ ["", "./", "/"], ∀ c ∈ lead.toList, isQuote c = false ∧ c ≠ '\n' := by simp [isQuote]
    refine ⟨fun h => ?_, fun h => (hall lead hlead _ h).2 rfl⟩
    rw [(hall lead hlead q h).1] at hq
    cases hq
  have hold : q ∉ old.toList := fun h => by
    rw [hkeys old new hnew q h] at hq
    cases hq
  have hquoted : quoted? q (lead.toList ++ old.toList ++ q :: after.toList) =
      some (lead.toList ++ old.toList, after.toList) := by
    refine quoted?_eq_some.2 ⟨rfl, ?_, ?_⟩
    · simp [hlead'.1, hold]
    · simp [hlead'.2, hline]
  have hname : Table.get? (String.ofList (bare (lead.toList ++ old.toList))) renames = some new := by
    rw [bare_lead hlead hdot hslash, String.ofList_toList, hnew]
  have hopen : Opens renames q _ _ _ := ⟨hq, hquoted, by rw [hname]; rfl⟩
  have hcut := pieces_stray hkeys hq hbefore (lead.toList ++ old.toList ++ q :: after.toList)
  rw [pieces_of_opens hopen hname] at hcut
  apply String.toList_inj.1
  rw [redirected_toList, replaced]
  have hsplit : (before ++ q.toString ++ lead ++ old ++ q.toString ++ after).toList =
      before.toList ++ q :: (lead.toList ++ old.toList ++ q :: after.toList) := by simp
  rw [hsplit, hcut, List.flatMap_append, List.flatMap_cons]
  simp [redirected_toList, replaced, Piece.chars]

/-- An apostrophe before the reference and another one after it. -/
theorem apostrophes_reach_over : redirected "It's \"./b.svg\", isn't it" [("b.svg", "b-2d711642.svg")] =
    "It's \"./b-2d711642.svg\", isn't it" := by
  have hnew : Table.get? "b.svg" [("b.svg", "b-2d711642.svg")] = some "b-2d711642.svg" := rfl
  have hkeys : QuoteFree [("b.svg", "b-2d711642.svg")] := by
    intro old new h
    rw [Table.get?] at h
    split at h
    · next he =>
      subst he
      simp [isQuote]
    · cases h
  have hside : redirected "It's " [("b.svg", "b-2d711642.svg")] = "It's " ∧
      redirected ", isn't it" [("b.svg", "b-2d711642.svg")] = ", isn't it" := by decide +kernel
  have h := redirected_around_reference hkeys (show isQuote '"' = true from rfl) "It's " "./" ", isn't it" (by decide)
    (by decide) hnew (by decide) (by decide) (by decide)
  rw [hside.1, hside.2] at h
  exact h

end SiteTree.Asset
