import Mathlib.Data.List.Basic
import SiteTree.Glob.Reader

/-!
Globs without wildcards, classes, groups and escapes. They are read as what is written in them, and such a glob
accepts its own text and nothing else.
-/

namespace SiteTree.Glob

variable {s : List Char} {b rest : Bytes} {pattern text : String}

/-- Characters that stand for more than themselves in a glob. A comma does so only in a group. -/
def special : List Char := ['?', '*', '[', '{', '}', '\\']

/-- No character of the pattern is special. -/
def IsLiteral (pattern : String) : Prop := ∀ c ∈ pattern.toList, c ∉ special

instance (pattern : String) : Decidable (IsLiteral pattern) := List.decidableBAll (· ∉ special) pattern.toList

def literals (s : List Char) : List Token := s.map .literal

theorem readTokens_literals (h : ∀ c ∈ s, c ∉ special) (prev : Option Char) (current : List Token) :
    readTokens s.length ⟨current, []⟩ prev s = .ok ⟨(literals s).reverse ++ current, []⟩ := by
  induction s generalizing prev current with
  | nil => rfl
  | cons c r ih =>
      have hc : c ∉ special := h c (by simp)
      simp only [special, List.mem_cons, List.not_mem_nil, or_false, not_or] at hc
      obtain ⟨hany, hstar, hclass, hopen, hclose, hescape⟩ := hc
      have hcomma : Draft.comma ⟨current, []⟩ = ⟨.literal c :: current, []⟩ ∨ c ≠ ',' := by
        by_cases hc : c = ','
        · exact .inl (by rw [hc]; rfl)
        · exact .inr hc
      have hrest := ih (fun d hd => h d (List.mem_cons_of_mem c hd)) (some c) (.literal c :: current)
      rw [List.length_cons, readTokens.eq_def]
      simp only [hany, hstar, hclass, hopen, hclose, hescape, if_false]
      have hend : readTokens r.length ⟨.literal c :: current, []⟩ (some c) r =
          .ok ⟨(literals (c :: r)).reverse ++ current, []⟩ := by
        rw [hrest]
        simp [literals]
      split
      · next he =>
        rw [hcomma.resolve_right (not_not.2 he)]
        exact hend
      · exact hend

theorem read_literal (h : IsLiteral pattern) : read pattern = .ok ⟨literals pattern.toList⟩ := by
  have hread := readTokens_literals h none []
  simp [read, hread, bind, Except.bind, Draft.inGroup]

theorem dropBytes?_eq_some {p : Bytes} : dropBytes? p b = some rest ↔ b = p ++ rest := by
  induction p generalizing b with
  | nil => simp [dropBytes?]
  | cons x p ih =>
      cases b with
      | nil => simp [dropBytes?]
      | cons y b =>
          by_cases hx : x = y
          · simp [dropBytes?, hx, ih]
          · simp [dropBytes?, hx, Ne.symm hx]

theorem distinct_option (o : Option Bytes) : distinct o.toList = o.toList := by
  cases o <;> rfl

/-- Literals leave what comes behind their bytes. -/
theorem restsAll_literals (s : List Char) (b : Bytes) :
    restsAll (literals s) b = (dropBytes? (s.flatMap charBytes) b).toList := by
  induction s generalizing b with
  | nil => rfl
  | cons c s ih =>
      have hsplit : dropBytes? ((c :: s).flatMap charBytes) b =
          (dropBytes? (charBytes c) b).bind (dropBytes? (s.flatMap charBytes)) := by
        ext rest
        simp only [List.flatMap_cons, dropBytes?_eq_some, Option.bind_eq_some_iff]
        constructor
        · intro hb
          exact ⟨_, by rw [hb, List.append_assoc], rfl⟩
        · rintro ⟨_, rfl, rfl⟩
          rw [List.append_assoc]
      have hstep : restsAll (literals (c :: s)) b = distinct ((dropBytes? (charBytes c) b).toList.flatMap
          fun r => restsAll (literals s) r) := by
        rw [literals, List.map_cons, restsAll, Token.rests]
        rfl
      rw [hstep, hsplit]
      cases dropBytes? (charBytes c) b with
      | none => rfl
      | some r =>
          rw [Option.toList_some, List.flatMap_singleton, ih, distinct_option]
          rfl

theorem toList_loop (bytes : ByteArray) (i : Nat) (r : List UInt8) :
    ByteArray.toList.loop bytes i r = r.reverse ++ bytes.data.toList.drop i := by
  fun_induction ByteArray.toList.loop bytes i r with
  | case1 i r hi ih =>
      have hlen : i < bytes.data.toList.length := by simpa using hi
      rw [ih, List.drop_eq_getElem_cons hlen]
      simp [ByteArray.get!, hi]
  | case2 i r hi =>
      rw [List.drop_eq_nil_of_le (by simpa using Nat.le_of_not_lt hi)]
      simp

theorem toList_data (bytes : ByteArray) : bytes.toList = bytes.data.toList := by
  rw [ByteArray.toList, toList_loop]
  simp

theorem bytes_inj {s t : String} : s.toUTF8.toList = t.toUTF8.toList ↔ s = t := by
  rw [toList_data, toList_data, Array.toList_inj]
  exact ⟨fun h => String.toByteArray_inj.1 (ByteArray.ext h), fun h => h ▸ rfl⟩

theorem bytes_ofList (s : List Char) : s.flatMap charBytes = (String.ofList s).toUTF8.toList := by
  induction s with
  | nil =>
      rw [toList_data]
      rfl
  | cons c s ih =>
      have hcons : String.ofList (c :: s) = c.toString ++ String.ofList s := by
        rw [← String.toList_inj]
        simp
      have hbytes : (String.ofList (c :: s)).toUTF8 = c.toString.toUTF8 ++ (String.ofList s).toUTF8 := by
        rw [hcons]
        exact String.toByteArray_append
      rw [List.flatMap_cons, ih, hbytes, charBytes, toList_data, toList_data, toList_data, ByteArray.data_append,
        Array.toList_append]

theorem endsPlainly_literals (s : List Char) : endsPlainly (literals s) = true := by
  cases s with
  | nil => rfl
  | cons c s =>
      show (literals (c :: s)).all Token.isLiteral = true
      simp [literals, Token.isLiteral]

/-- A glob of literals accepts the text that it spells. -/
theorem accepts_literals : accepts ⟨literals pattern.toList⟩ text = true ↔ text = pattern := by
  have heverything : isEverything (literals pattern.toList) = false := by
    rcases pattern.toList with _ | ⟨c, _ | _⟩ <;> rfl
  have hbytes : pattern.toList.flatMap charBytes = pattern.toUTF8.toList := by
    rw [bytes_ofList, String.ofList_toList]
  rw [accepts, heverything, endsPlainly_literals, restsAll_literals, hbytes]
  simp only [Bool.false_or, Bool.not_true, Bool.and_false, Bool.false_and, Bool.not_false, Bool.and_true,
    List.any_eq_true, Option.mem_toList, List.isEmpty_iff, exists_eq_right, dropBytes?_eq_some,
    List.append_nil, bytes_inj]

end SiteTree.Glob
