import SiteTree.Proofs.EntryName.Token

/-!
The form of a loop: which texts have it, that each has it in one way only, and that reading a loop
finds it wherever it stands. The parts of a loop are runs of characters of one kind, and what follows
a run is of another kind.
-/

namespace SiteTree.EntryName

open Text

variable {p : Char → Bool} {c : Char} {s u v u' v' : List Char} {name : String}

def blanks : List Nat :=
  [9, 10, 11, 12, 13, 0x20, 0x85, 0xA0, 0x1680, 0x2000, 0x2001, 0x2002, 0x2003, 0x2004, 0x2005, 0x2006, 0x2007,
    0x2008, 0x2009, 0x200A, 0x2028, 0x2029, 0x202F, 0x205F, 0x3000]

theorem mem_blanks (h : isBlank c = true) : c.toNat ∈ blanks := by
  simp only [isBlank, Bool.or_eq_true, Bool.and_eq_true, decide_eq_true_eq, beq_iff_eq] at h
  simp only [blanks, List.mem_cons, List.not_mem_nil, or_false]
  omega

/-- No blank is part of a binding or of a path. -/
theorem not_of_isBlank (h : isBlank c = true) : startsBinding c = false ∧ inBinding c = false ∧ inPath c = false := by
  have hall : ∀ n ∈ blanks, startsBinding (Char.ofNat n) = false ∧ inBinding (Char.ofNat n) = false ∧
      inPath (Char.ofNat n) = false := by decide +kernel
  have hc := hall c.toNat (mem_blanks h)
  rwa [Char.ofNat_toNat] at hc

/-- All characters are of the kind, and there are some. -/
def IsRun (p : Char → Bool) (u : List Char) : Prop := u ≠ [] ∧ ∀ c ∈ u, p c = true

/-- What comes here starts with a character of another kind, if with any. -/
def Ends (p : Char → Bool) (v : List Char) : Prop := ∀ c ∈ v.head?, p c = false

theorem ends_cons (h : p c = false) (v : List Char) : Ends p (c :: v) := by
  intro d hd
  obtain rfl : c = d := by simpa using hd
  exact h

theorem ends_of_isRun {q : Char → Bool} (h : IsRun q u) (hq : ∀ c, q c = true → p c = false) (v : List Char) :
    Ends p (u ++ v) := by
  obtain ⟨c, u, rfl⟩ := List.exists_cons_of_ne_nil h.1
  exact ends_cons (hq c (h.2 c List.mem_cons_self)) _

theorem takeWhile_run (hu : ∀ c ∈ u, p c = true) (hv : Ends p v) : (u ++ v).takeWhile p = u := by
  rw [List.takeWhile_append_of_pos hu]
  cases v with
  | nil => simp
  | cons c v => rw [List.takeWhile_cons_of_neg (by rw [hv c rfl]; exact Bool.false_ne_true), List.append_nil]

theorem dropWhile_run (hu : ∀ c ∈ u, p c = true) (hv : Ends p v) : (u ++ v).dropWhile p = v := by
  rw [List.dropWhile_append_of_pos hu]
  cases v with
  | nil => rfl
  | cons c v => rw [List.dropWhile_cons_of_neg (by rw [hv c rfl]; exact Bool.false_ne_true)]

/-- Where a run ends is told by what follows it. -/
theorem run_inj (hu : ∀ c ∈ u, p c = true) (hv : Ends p v) (hu' : ∀ c ∈ u', p c = true) (hv' : Ends p v')
    (h : u ++ v = u' ++ v') : u = u' ∧ v = v' := by
  have htake := takeWhile_run hu hv
  have hdrop := dropWhile_run hu hv
  rw [h, takeWhile_run hu' hv'] at htake
  rw [h, dropWhile_run hu' hv'] at hdrop
  exact ⟨htake.symm, hdrop.symm⟩

/-- A character that may start a binding, and characters that may be in one. -/
def IsBinding : List Char → Prop
  | [] => False
  | c :: r => startsBinding c = true ∧ ∀ d ∈ r, inBinding d = true

/-- A text that has the form of a loop, by its parts: the binding and the path, and the blanks around them. -/
@[ext]
structure LoopText where
  lead : List Char
  binding : List Char
  beforeOf : List Char
  afterOf : List Char
  path : List Char
  trail : List Char
  lead_blank : ∀ c ∈ lead, isBlank c = true
  isBinding : IsBinding binding
  beforeOf_run : IsRun isBlank beforeOf
  afterOf_run : IsRun isBlank afterOf
  path_run : IsRun inPath path
  trail_blank : ∀ c ∈ trail, isBlank c = true

namespace LoopText

variable (l : LoopText)

/-- What stands between the brackets. -/
def body : List Char := l.lead ++ l.binding ++ l.beforeOf ++ ['o', 'f'] ++ l.afterOf ++ l.path ++ l.trail

def chars : List Char := '[' :: l.body ++ [']']

theorem not_mem_body (hblank : isBlank c = false) (hstart : startsBinding c = false) (hbinding : inBinding c = false)
    (hpath : inPath c = false) (hof : c ∉ ['o', 'f']) : c ∉ l.body := by
  have hnot : ∀ {q : Char → Bool} {u : List Char}, q c = false → (∀ d ∈ u, q d = true) → c ∉ u := by
    intro q u hq hu hc
    rw [hu c hc] at hq
    cases hq
  have hb : c ∉ l.binding := by
    intro hc
    have h := l.isBinding
    cases hb : l.binding with
    | nil => rw [hb] at hc; cases hc
    | cons d b =>
        rw [hb] at h hc
        rcases List.mem_cons.1 hc with rfl | hc
        · rw [h.1] at hstart
          cases hstart
        · exact hnot hbinding h.2 hc
  simp only [body, List.mem_append, not_or]
  exact ⟨⟨⟨⟨⟨⟨hnot hblank l.lead_blank, hb⟩, hnot hblank l.beforeOf_run.2⟩, hof⟩, hnot hblank l.afterOf_run.2⟩,
    hnot hpath l.path_run.2⟩, hnot hblank l.trail_blank⟩

/-- A loop is a token as well. -/
theorem isBody : IsBody l.body := by
  refine ⟨by simp [body], ?_, ?_⟩
  · apply l.not_mem_body <;> decide
  · apply l.not_mem_body <;> decide

def toLoop : Loop := ⟨String.ofList l.binding, String.ofList l.path⟩

theorem chars_append (rest : List Char) : l.chars ++ rest = '[' :: (l.lead ++ (l.binding ++ (l.beforeOf ++
    'o' :: 'f' :: (l.afterOf ++ (l.path ++ (l.trail ++ ']' :: rest)))))) := by
  simp [chars, body]

theorem ends_lead (v : List Char) : Ends isBlank (l.binding ++ v) := by
  have h := l.isBinding
  cases hb : l.binding with
  | nil => rw [hb] at h; exact h.elim
  | cons c b =>
      rw [hb] at h
      apply ends_cons
      rw [Bool.eq_false_iff]
      intro hblank
      have hstart := h.1
      rw [(not_of_isBlank hblank).1] at hstart
      cases hstart

theorem ends_beforeOf (v : List Char) : Ends inBinding (l.beforeOf ++ v) :=
  ends_of_isRun l.beforeOf_run (fun _ h => (not_of_isBlank h).2.1) v

theorem ends_afterOf (v : List Char) : Ends isBlank (l.path ++ v) := by
  apply ends_of_isRun l.path_run
  intro c hc
  rw [Bool.eq_false_iff]
  intro hblank
  rw [(not_of_isBlank hblank).2.2] at hc
  cases hc

theorem ends_path (v : List Char) : Ends inPath (l.trail ++ ']' :: v) := by
  by_cases h : l.trail = []
  · rw [h]
    exact ends_cons (by decide) v
  · exact ends_of_isRun ⟨h, l.trail_blank⟩ (fun _ h => (not_of_isBlank h).2.2) _

end LoopText

theorem ends_of (v : List Char) : Ends isBlank ('o' :: v) := ends_cons (by decide) v

theorem ends_close (v : List Char) : Ends isBlank (']' :: v) := ends_cons (by decide) v

theorem readBinding?_run (h : IsBinding u) (hv : Ends inBinding v) : readBinding? (u ++ v) = some (u, v) := by
  cases u with
  | nil => exact h.elim
  | cons c u =>
      obtain ⟨hc, hu⟩ := h
      rw [List.cons_append, readBinding?, if_pos hc, takeWhile_run hu hv, dropWhile_run hu hv]

theorem readBinding?_eq_some (h : readBinding? s = some (u, v)) : s = u ++ v ∧ IsBinding u := by
  cases s with
  | nil => cases h
  | cons c s =>
      rw [readBinding?] at h
      split at h
      · next hc =>
        obtain ⟨rfl, rfl⟩ := Prod.mk.inj (Option.some.inj h)
        refine ⟨by rw [List.cons_append, List.takeWhile_append_dropWhile], hc, fun d hd => List.mem_takeWhile_imp hd⟩
      · cases h

theorem skipBlanks?_run (h : IsRun isBlank u) (hv : Ends isBlank v) : skipBlanks? (u ++ v) = some v := by
  obtain ⟨c, u, rfl⟩ := List.exists_cons_of_ne_nil h.1
  have hu : ∀ d ∈ u, isBlank d = true := fun d hd => h.2 d (List.mem_cons_of_mem c hd)
  rw [List.cons_append, skipBlanks?, if_pos (h.2 c List.mem_cons_self), trimStart, dropWhile_run hu hv]

theorem skipBlanks?_eq_some (h : skipBlanks? s = some v) : ∃ u, s = u ++ v ∧ IsRun isBlank u := by
  cases s with
  | nil => cases h
  | cons c s =>
      rw [skipBlanks?] at h
      split at h
      · next hc =>
        obtain rfl := Option.some.inj h
        refine ⟨c :: s.takeWhile isBlank, ?_, by simp, fun d hd => ?_⟩
        · rw [List.cons_append, trimStart, List.takeWhile_append_dropWhile]
        · rcases List.mem_cons.1 hd with rfl | hd
          · exact hc
          · exact List.mem_takeWhile_imp hd
      · cases h

/-- A loop is read from where it stands, whatever comes after it. -/
theorem readLoop?_chars (l : LoopText) (rest : List Char) : readLoop? (l.chars ++ rest) = some (l.toLoop, rest) := by
  have hopen : ∀ t : List Char, dropStart? ['['] ('[' :: t) = some t := fun t => dropStart?_eq_some.2 rfl
  have hof : ∀ t : List Char, dropStart? ['o', 'f'] ('o' :: 'f' :: t) = some t := fun t => dropStart?_eq_some.2 rfl
  have hclose : dropStart? [']'] (']' :: rest) = some rest := dropStart?_eq_some.2 rfl
  have hlead := dropWhile_run l.lead_blank (l.ends_lead (l.beforeOf ++ 'o' :: 'f' :: (l.afterOf ++ (l.path ++
    (l.trail ++ ']' :: rest)))))
  have hpath := l.ends_path rest
  rw [l.chars_append, readLoop?, hopen]
  simp only [Option.bind_eq_bind, Option.bind_some, trimStart, hlead, readBinding?_run l.isBinding (l.ends_beforeOf _),
    skipBlanks?_run l.beforeOf_run (ends_of _), hof, skipBlanks?_run l.afterOf_run (l.ends_afterOf _),
    takeWhile_run l.path_run.2 hpath, dropWhile_run l.path_run.2 hpath, dropWhile_run l.trail_blank (ends_close _), hclose]
  rw [if_neg (by simpa using l.path_run.1)]
  rfl

theorem readLoop?_eq_some {x : Loop × List Char} (h : readLoop? s = some x) :
    ∃ l : LoopText, s = l.chars ++ x.2 ∧ x.1 = l.toLoop := by
  simp only [readLoop?, bind, Option.bind_eq_some_iff] at h
  obtain ⟨r₁, hopen, ⟨b, r₂⟩, hbinding, r₃, hblanks, r₄, hof, r₅, hblanks', h⟩ := h
  dsimp only at h hblanks
  split at h
  · cases h
  next hpath =>
  obtain ⟨r₆, hclose, hx⟩ := Option.bind_eq_some_iff.1 h
  obtain rfl := Option.some.inj hx
  obtain rfl : s = '[' :: r₁ := dropStart?_eq_some.1 hopen
  obtain rfl : r₃ = 'o' :: 'f' :: r₄ := dropStart?_eq_some.1 hof
  have hend : trimStart (r₅.dropWhile inPath) = ']' :: r₆ := dropStart?_eq_some.1 hclose
  obtain ⟨htext, hb⟩ := readBinding?_eq_some hbinding
  obtain ⟨before, rfl, hbefore⟩ := skipBlanks?_eq_some hblanks
  obtain ⟨after, rfl, hafter⟩ := skipBlanks?_eq_some hblanks'
  let l : LoopText :=
    { lead := r₁.takeWhile isBlank, binding := b, beforeOf := before, afterOf := after,
      path := r₅.takeWhile inPath, trail := (r₅.dropWhile inPath).takeWhile isBlank,
      lead_blank := fun _ hc => List.mem_takeWhile_imp hc, isBinding := hb, beforeOf_run := hbefore,
      afterOf_run := hafter, path_run := ⟨by simpa using hpath, fun _ hc => List.mem_takeWhile_imp hc⟩,
      trail_blank := fun _ hc => List.mem_takeWhile_imp hc }
  refine ⟨l, ?_, rfl⟩
  have htrail : (r₅.dropWhile inPath).takeWhile isBlank ++ ']' :: r₆ = r₅.dropWhile inPath := by
    rw [← hend, trimStart, List.takeWhile_append_dropWhile]
  rw [l.chars_append, htrail, List.takeWhile_append_dropWhile, ← htext, trimStart, List.takeWhile_append_dropWhile]

/-- A text has the form of a loop in one way only. -/
theorem LoopText.chars_inj {l l' : LoopText} (h : l.chars = l'.chars) : l = l' := by
  have htext : l.chars ++ [] = l'.chars ++ [] := congrArg (· ++ []) h
  rw [chars_append, chars_append] at htext
  obtain ⟨hlead, htext⟩ := run_inj l.lead_blank (l.ends_lead _) l'.lead_blank (l'.ends_lead _) (List.cons.inj htext).2
  have hread := readBinding?_run l.isBinding (l.ends_beforeOf ('o' :: 'f' :: (l.afterOf ++ (l.path ++ (l.trail ++ [']'])))))
  rw [htext, readBinding?_run l'.isBinding (l'.ends_beforeOf _)] at hread
  obtain ⟨hbinding, htext⟩ := Prod.mk.inj (Option.some.inj hread)
  obtain ⟨hbefore, htext⟩ := run_inj l'.beforeOf_run.2 (ends_of _) l.beforeOf_run.2 (ends_of _) htext
  have hrest := (List.cons.inj (List.cons.inj htext).2).2
  obtain ⟨hafter, hrest⟩ := run_inj l'.afterOf_run.2 (l'.ends_afterOf _) l.afterOf_run.2 (l.ends_afterOf _) hrest
  obtain ⟨hpath, hrest⟩ := run_inj l'.path_run.2 (l'.ends_path _) l.path_run.2 (l.ends_path _) hrest
  exact LoopText.ext hlead hbinding.symm hbefore.symm hafter.symm hpath.symm (List.append_cancel_right hrest).symm

/-- The names that are loops are those that have the form of one. -/
theorem loop?_iff {loop : Loop} : loop? name = some loop ↔ ∃ l : LoopText, name.toList = l.chars ∧ loop = l.toLoop := by
  rw [loop?]
  constructor
  · intro h
    split at h
    · next x hread =>
      obtain rfl := Option.some.inj h
      obtain ⟨l, htext, hx⟩ := readLoop?_eq_some hread
      exact ⟨l, by rw [htext, List.append_nil], hx⟩
    · cases h
  · rintro ⟨l, htext, rfl⟩
    have hread := readLoop?_chars l []
    rw [List.append_nil, ← htext] at hread
    rw [hread]

/-- A name holds a loop just if some stretch of it has the form of one. -/
theorem holdsLoop_iff : holdsLoop s = true ↔ ∃ (u : List Char) (l : LoopText) (v : List Char), s = u ++ l.chars ++ v := by
  induction s with
  | nil =>
      refine iff_of_false Bool.false_ne_true ?_
      rintro ⟨u, l, v, h⟩
      simp [LoopText.chars] at h
  | cons c s ih =>
      rw [holdsLoop, Bool.or_eq_true, ih]
      constructor
      · rintro (h | ⟨u, l, v, rfl⟩)
        · obtain ⟨x, hx⟩ := Option.isSome_iff_exists.1 h
          obtain ⟨l, htext, -⟩ := readLoop?_eq_some hx
          exact ⟨[], l, x.2, htext⟩
        · exact ⟨c :: u, l, v, rfl⟩
      · rintro ⟨u, l, v, h⟩
        cases u with
        | nil =>
            rw [List.nil_append] at h
            rw [h, readLoop?_chars]
            exact .inl rfl
        | cons d u =>
            obtain ⟨-, rfl⟩ := List.cons.inj h
            exact .inr ⟨u, l, v, rfl⟩

end SiteTree.EntryName
