import Mathlib.Data.List.TakeWhile
import SiteTree.Json.Reader

/-!
Which texts are JSON documents, whatever they are good for. A document is taken apart into what its brackets
hold; strings, numbers and words stay as they are written, so that also those are documents that no reader can make
a value of: a number that is too large, half a character, brackets nested too deeply.
-/

namespace SiteTree.Json

open Number

/-- A value as it is written. A number or a word stands bare, a string between quotes. -/
inductive Written where
  | bare (text : List Char)
  | quoted (body : List Char)
  | list (items : List Written)
  | object (fields : List (List Char × Written))

/-- The parts of a document: a value, one item or field with the gaps around it, and all of those in a pair of
brackets. -/
inductive Part where
  | value (d : Written)
  | item (d : Written)
  | items (l : List Written)
  | field (key : List Char) (d : Written)
  | fields (l : List (List Char × Written))

def IsDigits (s : List Char) : Prop := s ≠ [] ∧ ∀ c ∈ s, isDigit c = true

/-- The whole part of a number, without a needless zero in front. -/
def IsWhole (s : List Char) : Prop := s = ['0'] ∨ IsDigits s ∧ s.head? ≠ some '0'

def IsFraction (s : List Char) : Prop := s = [] ∨ ∃ digits, s = '.' :: digits ∧ IsDigits digits

def IsExponent (s : List Char) : Prop := s = [] ∨ ∃ e sign digits, s = e :: (sign ++ digits) ∧ e ∈ ['e', 'E'] ∧
  sign ∈ [[], ['+'], ['-']] ∧ IsDigits digits

def IsNumber (s : List Char) : Prop := ∃ sign whole fraction exponent, s = sign ++ (whole ++ (fraction ++ exponent)) ∧
  sign ∈ [[], ['-']] ∧ IsWhole whole ∧ IsFraction fraction ∧ IsExponent exponent

/-- The words for nothing and for the truth values. -/
def words : List (List Char) := [['n', 'u', 'l', 'l'], ['t', 'r', 'u', 'e'], ['f', 'a', 'l', 's', 'e']]

def IsBare (s : List Char) : Prop := s ∈ words ∨ IsNumber s

/-- Characters that stand for one character behind a backslash, each with that character. -/
def shortEscapes : List (Char × Char) :=
  [('"', '"'), ('\\', '\\'), ('/', '/'), ('b', '\x08'), ('f', '\x0c'), ('n', '\n'), ('r', '\r'), ('t', '\t')]

def IsHex (c : Char) : Prop := (hexValue? c).isSome

/-- What may stand between the quotes of a string. -/
inductive IsBody : List Char → Prop
  | nil : IsBody []
  | char {c s} (hquote : c ≠ '"') (hescape : c ≠ '\\') (hc : 32 ≤ c.toNat) (hs : IsBody s) : IsBody (c :: s)
  | short {c d s} (hc : (c, d) ∈ shortEscapes) (hs : IsBody s) : IsBody ('\\' :: c :: s)
  | unit {a b c d s} (ha : IsHex a) (hb : IsHex b) (hc : IsHex c) (hd : IsHex d) (hs : IsBody s) :
      IsBody ('\\' :: 'u' :: a :: b :: c :: d :: s)

/-- A text, and what follows the blanks at its start, or some of them. -/
def Gap (s r : List Char) : Prop := ∃ g, s = g ++ r ∧ ∀ c ∈ g, isSpace c = true

/-- A part stands at the start of a text, with a rest behind it. -/
inductive Spells : Part → List Char → List Char → Prop
  | bare {t r} (ht : IsBare t) : Spells (.value (.bare t)) (t ++ r) r
  | quoted {body r} (hbody : IsBody body) : Spells (.value (.quoted body)) ('"' :: (body ++ '"' :: r)) r
  | list {l s r} (hl : Spells (.items l) s (']' :: r)) : Spells (.value (.list l)) ('[' :: s) r
  | object {l s r} (hl : Spells (.fields l) s ('}' :: r)) : Spells (.value (.object l)) ('{' :: s) r
  | item {d s s₁ s₂ r} (hbefore : Gap s s₁) (hd : Spells (.value d) s₁ s₂) (hafter : Gap s₂ r) : Spells (.item d) s r
  | noItems {s r} (hgap : Gap s r) : Spells (.items []) s r
  | lastItem {d s r} (hd : Spells (.item d) s r) : Spells (.items [d]) s r
  | items {d e l s s₁ r} (hd : Spells (.item d) s (',' :: s₁)) (hl : Spells (.items (e :: l)) s₁ r) :
      Spells (.items (d :: e :: l)) s r
  | field {key d s s₁ s₂ r} (hbefore : Gap s ('"' :: (key ++ '"' :: s₁))) (hkey : IsBody key)
      (hcolon : Gap s₁ (':' :: s₂)) (hd : Spells (.item d) s₂ r) : Spells (.field key d) s r
  | noFields {s r} (hgap : Gap s r) : Spells (.fields []) s r
  | lastField {key d s r} (hd : Spells (.field key d) s r) : Spells (.fields [(key, d)]) s r
  | fields {key d e l s s₁ r} (hd : Spells (.field key d) s (',' :: s₁)) (hl : Spells (.fields (e :: l)) s₁ r) :
      Spells (.fields ((key, d) :: e :: l)) s r

/-- The whole text is one value, with nothing but gaps around it. -/
def IsDocument (text : String) (d : Written) : Prop := Spells (.item d) text.toList []

/-- What a string says: `none` if it holds half a character. -/
def saying? (body : List Char) : Option String := (readString? (body ++ ['"'])).map (·.1)

variable {s r : List Char} {a : Char}

theorem skipSpace_cons (ha : isSpace a = true) (u : List Char) : skipSpace (a :: u) = skipSpace u := by
  simp [skipSpace, ha]

theorem skipSpace_solid (ha : isSpace a = false) (u : List Char) : skipSpace (a :: u) = a :: u := by
  simp [skipSpace, ha]

theorem skipSpace_gap (h : Gap s r) : skipSpace s = skipSpace r := by
  obtain ⟨g, rfl, hg⟩ := h
  exact List.dropWhile_append_of_pos hg

theorem isDigit_iff : isDigit a = true ↔ 48 ≤ a.toNat ∧ a.toNat ≤ 57 := by
  simp [isDigit, Char.le_def, UInt32.le_iff_toNat_le]

theorem ne_of_isDigit {b : Char} (ha : isDigit a = true) (hb : isDigit b = false) : a ≠ b := by
  rintro rfl
  exact absurd ha (by simp [hb])

theorem head_of_isWhole (h : IsWhole s) : ∃ a u, s = a :: u ∧ isDigit a = true := by
  rcases h with rfl | ⟨⟨hne, hall⟩, -⟩
  · exact ⟨'0', [], rfl, by decide⟩
  · obtain ⟨a, u, rfl⟩ := List.exists_cons_of_ne_nil hne
    exact ⟨a, u, rfl, hall a List.mem_cons_self⟩

theorem head_of_isNumber (h : IsNumber s) :
    ∃ a u, s = a :: u ∧ (isDigit a = true ∨ a = '-' ∧ ∃ b v, u = b :: v ∧ isDigit b = true) := by
  obtain ⟨sign, whole, fraction, exponent, rfl, hsign, hwhole, -, -⟩ := h
  obtain ⟨a, u, rfl, ha⟩ := head_of_isWhole hwhole
  simp only [List.mem_cons, List.not_mem_nil, or_false] at hsign
  rcases hsign with rfl | rfl
  · exact ⟨a, _, rfl, .inl ha⟩
  · exact ⟨'-', _, rfl, .inr ⟨rfl, a, _, rfl, ha⟩⟩

/-- Only numbers begin with a digit or a sign. -/
theorem mem_words {u : List Char} (h : IsBare (a :: u)) (hdigit : isDigit a = false) (hsign : a ≠ '-') :
    a :: u ∈ words := by
  refine h.resolve_right fun hnumber => ?_
  obtain ⟨_, _, heq, ha⟩ := head_of_isNumber hnumber
  cases heq
  rcases ha with ha | ⟨ha, -⟩
  · simp [hdigit] at ha
  · exact hsign ha

end SiteTree.Json
