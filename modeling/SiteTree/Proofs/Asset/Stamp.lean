import Mathlib.Data.String.Basic
import SiteTree.Proofs.Asset.Confined

/-!
Names that carry a hash: what a stamped name is made of, that it tells the name and the hash that
it came from, and on which side of that name it is sorted.
-/

namespace SiteTree.Asset

open SiteTree.Path Text

variable {name new other hash : String} {stem ext s : List Char} {bytes : ByteArray}

/-- A stem and an extension put together again. -/
def joined (stem : List Char) : Option (List Char) → List Char
  | some ext => stem ++ '.' :: ext
  | none => stem

/-- The name carries the hash of the content. -/
def Addressed (name : String) (bytes : ByteArray) : Prop :=
  carries (cutName name.toList).1 (fingerprint bytes).toList = true

instance (name : String) (bytes : ByteArray) : Decidable (Addressed name bytes) :=
  inferInstanceAs (Decidable (_ = true))

/-- Nothing stands behind a dot in the name, unless the dot is its first character. -/
def IsBare (name : String) : Prop := (cutName name.toList).2 = none

instance (name : String) : Decidable (IsBare name) := inferInstanceAs (Decidable (_ = none))

theorem joined_cutName (s : List Char) : joined (cutName s).1 (cutName s).2 = s := by
  rcases hc : cutName s with ⟨stem, ext⟩
  cases ext with
  | none => exact cutName_eq_none hc
  | some ext => exact (cutName_eq_some hc).symm

theorem stamp?_eq_some (h : IsName name) : stamp? name hash = some new ↔
    carries (cutName name.toList).1 hash.toList = false ∧
      new.toList = joined ((cutName name.toList).1 ++ '-' :: hash.toList) (cutName name.toList).2 := by
  simp only [stamp?, fileChars?_name h, bind, Option.bind]
  rcases cutName name.toList with ⟨stem, ext⟩
  dsimp only
  cases hc : carries stem hash.toList with
  | true => simp
  | false =>
      cases ext with
      | none => simp [joined, ← String.toList_inj, eq_comm]
      | some ext => simp [joined, ← String.toList_inj, eq_comm]

theorem stamp?_eq_none_iff (h : IsName name) :
    stamp? name hash = none ↔ carries (cutName name.toList).1 hash.toList = true := by
  constructor
  · intro hn
    by_contra hc
    have hs : stamp? name hash = some (String.ofList (joined ((cutName name.toList).1 ++ '-' :: hash.toList)
        (cutName name.toList).2)) := (stamp?_eq_some h).2 ⟨by simpa using hc, by simp⟩
    rw [hn] at hs
    cases hs
  · intro hc
    cases hn : stamp? name hash with
    | none => rfl
    | some new => rw [((stamp?_eq_some h).1 hn).1] at hc; cases hc

theorem stamp?_eq_none (h : IsName name) : stamp? name (fingerprint bytes) = none ↔ Addressed name bytes :=
  stamp?_eq_none_iff h

theorem carries_iff : carries stem s = true ↔ ∃ front, stem = front ++ '-' :: s := by
  rw [carries, List.isSuffixOf_iff_suffix]
  exact ⟨fun ⟨front, h⟩ => ⟨front, h.symm⟩, fun ⟨front, h⟩ => ⟨front, h.symm⟩⟩

/-- The extension stays, and the stem gets a dash and the hash. -/
theorem cutName_stamp (h : IsName name) (hhash : IsHash hash) (hs : stamp? name hash = some new) :
    cutName new.toList = ((cutName name.toList).1 ++ '-' :: hash.toList, (cutName name.toList).2) := by
  rw [((stamp?_eq_some h).1 hs).2]
  rcases hc : cutName name.toList with ⟨stem, ext⟩
  cases ext with
  | none =>
      obtain rfl : stem = name.toList := cutName_eq_none hc
      have hd := cutName_none (congrArg Prod.snd hc)
      refine cutName_of_not_mem ?_
      have hne : name.toList ≠ [] := by simpa using h.1
      show '.' ∉ (name.toList ++ '-' :: hash.toList).tail
      rw [List.tail_append_of_ne_nil hne]
      simp [hd, hhash.dot_not_mem]
  | some ext => exact cutName_append (by simp) (cutName_some hc).2

/-- A stamped name tells what it came from. -/
theorem stamp?_inj {hash' : String} (h : IsName name) (h' : IsName other) (hhash : IsHash hash) (hhash' : IsHash hash')
    (hs : stamp? name hash = some new) (hs' : stamp? other hash' = some new) : name = other ∧ hash = hash' := by
  have hc := (cutName_stamp h hhash hs).symm.trans (cutName_stamp h' hhash' hs')
  obtain ⟨hstem, hext⟩ := Prod.mk.inj hc
  have hlen : ('-' :: hash.toList).length = ('-' :: hash'.toList).length := by simp [hhash.1, hhash'.1]
  obtain ⟨hstem, hdigits⟩ := List.append_inj' hstem hlen
  refine ⟨?_, String.toList_inj.1 (List.cons_eq_cons.1 hdigits).2⟩
  rw [← String.toList_inj, ← joined_cutName name.toList, ← joined_cutName other.toList, hstem, hext]

section

variable (h : IsName name) (hs : stamp? name (fingerprint bytes) = some new)

include h hs

theorem cutName_stamped : cutName new.toList =
    ((cutName name.toList).1 ++ '-' :: (fingerprint bytes).toList, (cutName name.toList).2) :=
  cutName_stamp h (isHash_fingerprint bytes) hs

theorem addressed_stamped : Addressed new bytes := by
  rw [Addressed, cutName_stamped h hs, carries_iff]
  exact ⟨_, rfl⟩

theorem isPage_stamped : (cutName new.toList).2 = (cutName name.toList).2 := by rw [cutName_stamped h hs]

theorem length_lt_stamped : name.length < new.length := by
  have hl := congrArg List.length (joined_cutName name.toList)
  have hn := congrArg List.length ((stamp?_eq_some h).1 hs).2
  rw [← String.length_toList, ← String.length_toList, ← hl, hn]
  cases (cutName name.toList).2 with
  | none => simp [joined]
  | some ext =>
      simp only [joined, List.length_append, List.length_cons]
      omega

theorem stamped_ne : new ≠ name := by
  rintro rfl
  exact absurd (length_lt_stamped h hs) (Nat.lt_irrefl _)

/-- A stamped name holds what the name holds, a dash and digits. -/
theorem mem_stamped {c : Char} (hc : c ∈ new.toList) : c ∈ name.toList ∨ c ∈ "-0123456789abcdef".toList := by
  rw [((stamp?_eq_some h).1 hs).2] at hc
  have hj := joined_cutName name.toList
  have hhash : c ∈ (fingerprint bytes).toList → c ∈ "-0123456789abcdef".toList := fun hm =>
    List.mem_cons_of_mem '-' (fingerprint_chars bytes c hm)
  rw [← hj]
  cases he : (cutName name.toList).2 with
  | none =>
      rw [he, joined, List.mem_append, List.mem_cons] at hc
      rcases hc with hc | rfl | hc
      · exact .inl hc
      · exact .inr (by decide)
      · exact .inr (hhash hc)
  | some ext =>
      rw [he, joined, List.append_assoc, List.cons_append, List.mem_append, List.mem_cons, List.mem_append] at hc
      rcases hc with hc | rfl | hc | hc
      · exact .inl (List.mem_append_left _ hc)
      · exact .inr (by decide)
      · exact .inr (hhash hc)
      · exact .inl (List.mem_append_right _ hc)

/-- A name without an extension comes before the stamped one. -/
theorem lt_stamped_of_isBare (hb : IsBare name) : name < new := by
  have hn := ((stamp?_eq_some h).1 hs).2
  have hj := joined_cutName name.toList
  rw [IsBare] at hb
  rw [hb, joined] at hn hj
  rw [String.lt_iff_toList_lt, hn, hj]
  have happ : name.toList ++ [] < name.toList ++ '-' :: (fingerprint bytes).toList :=
    List.append_left_lt (List.nil_lt_cons _ _)
  simpa using happ

/-- With an extension it comes after: the dash is less than the dot. -/
theorem stamped_lt_of_not_isBare (hb : ¬ IsBare name) : new < name := by
  have hn := ((stamp?_eq_some h).1 hs).2
  have hj := joined_cutName name.toList
  obtain ⟨ext, he⟩ := Option.ne_none_iff_exists'.1 hb
  rw [he, joined] at hn hj
  have hlt : '-' :: (fingerprint bytes).toList ++ '.' :: ext < '.' :: ext :=
    List.cons_lt_cons_iff.2 (.inl (by decide))
  have happ : (cutName name.toList).1 ++ ('-' :: (fingerprint bytes).toList ++ '.' :: ext) <
      (cutName name.toList).1 ++ '.' :: ext := List.append_left_lt hlt
  rwa [← List.append_assoc, ← hn, hj, ← String.lt_iff_toList_lt] at happ

theorem stamped_inj {bytes' : ByteArray} (h' : IsName other)
    (hs' : stamp? other (fingerprint bytes') = some new) :
    name = other ∧ fingerprint bytes = fingerprint bytes' :=
  stamp?_inj h h' (isHash_fingerprint bytes) (isHash_fingerprint bytes') hs hs'

end

/-- A name carries at most one hash. -/
theorem Addressed.unique {bytes' : ByteArray} (h : Addressed name bytes) (h' : Addressed name bytes') :
    fingerprint bytes = fingerprint bytes' := by
  rw [Addressed, carries, List.isSuffixOf_iff_suffix] at h h'
  have hlen : ('-' :: (fingerprint bytes).toList).length = ('-' :: (fingerprint bytes').toList).length := by
    simp [fingerprint_length]
  have he := (List.suffix_of_suffix_length_le h h' hlen.le).eq_of_length hlen
  exact String.toList_inj.1 (List.cons_eq_cons.1 he).2

/-- Without a slash a text is a name, or it is one of those that name nothing. -/
theorem isName_or_stemless (hslash : '/' ∉ name.toList) : IsName name ∨ Path.fileChars? ⟨name⟩ = none := by
  by_cases hne : name = ""
  · subst hne
    exact .inr rfl
  by_cases hdot : name = "."
  · subst hdot
    exact .inr rfl
  by_cases hup : name = ".."
  · subst hup
    exact .inr (fileChars?_single hslash hne hdot)
  exact .inl ⟨hne, hdot, hup, hslash⟩

theorem stem?_name (h : IsName name) : Path.stem? ⟨name⟩ = some (String.ofList (cutName name.toList).1) := by
  rw [stem?, stemChars?, fileChars?_name h]
  rfl

theorem extension?_name (h : IsName name) : Path.extension? ⟨name⟩ = (cutName name.toList).2.map String.ofList := by
  rw [extension?, extensionChars?, fileChars?_name h]
  rfl

theorem carries_iff_suffix : carries stem hash.toList = true ↔ ∃ front, String.ofList stem = front ++ "-" ++ hash := by
  rw [carries_iff]
  constructor
  · rintro ⟨front, rfl⟩
    exact ⟨String.ofList front, by rw [← String.toList_inj]; simp⟩
  · rintro ⟨front, h⟩
    exact ⟨front.toList, by simpa using congrArg String.toList h⟩

/-- Stamping leaves alone what has no stem or carries the hash already. Any other name keeps its extension, so that pages
stay pages, and has the hash behind its stem; it is a name that carries the hash, and no other name and hash lead to it. -/
theorem stamp?_stable_injective (hname : '/' ∉ name.toList) (hhash : IsHash hash) :
    (stamp? name hash = none ↔ ∀ stem, Path.stem? ⟨name⟩ = some stem → ∃ front, stem = front ++ "-" ++ hash) ∧
    (∀ new, stamp? name hash = some new → IsName new ∧
      (∃ stem, Path.stem? ⟨name⟩ = some stem ∧ Path.stem? ⟨new⟩ = some (stem ++ "-" ++ hash)) ∧
      Path.extension? ⟨new⟩ = Path.extension? ⟨name⟩ ∧ isPage ⟨new⟩ = isPage ⟨name⟩ ∧ stamp? new hash = none) ∧
    (∀ other hash' new, '/' ∉ other.toList → IsHash hash' → stamp? name hash = some new → stamp? other hash' = some new →
      name = other ∧ hash = hash') := by
  have hnone : ∀ {n g : String}, Path.fileChars? ⟨n⟩ = none → stamp? n g = none := by
    intro n g hn
    rw [stamp?, hn]
    rfl
  have hisName : ∀ {n g m : String}, '/' ∉ n.toList → stamp? n g = some m → IsName n := by
    intro n g m hn hs
    refine (isName_or_stemless hn).resolve_right fun hf => ?_
    rw [hnone hf] at hs
    cases hs
  refine ⟨?unstamped, fun new hs => ?stamped, fun other hash' new hother hhash' hs hs' => ?injective⟩
  case unstamped =>
    rcases isName_or_stemless hname with h | hf
    · rw [stamp?_eq_none_iff h, carries_iff_suffix, stem?_name h]
      simp
    · refine iff_of_true (hnone hf) fun stem hstem => ?_
      rw [stem?, stemChars?, hf] at hstem
      cases hstem
  case stamped =>
    have h := hisName hname hs
    have hnew : IsName new := stamp?_isName h hhash hs
    have hcut := cutName_stamp h hhash hs
    have hext : Path.extension? ⟨new⟩ = Path.extension? ⟨name⟩ := by rw [extension?_name hnew, extension?_name h, hcut]
    refine ⟨hnew, ⟨_, stem?_name h, ?_⟩, hext, by rw [isPage, isPage, hasExtension, hasExtension, hext], ?_⟩
    · rw [stem?_name hnew, hcut]
      refine congrArg some ?_
      rw [← String.toList_inj]
      simp
    · rw [stamp?_eq_none_iff hnew, hcut]
      exact carries_iff.2 ⟨_, rfl⟩
  case injective =>
    exact stamp?_inj (hisName hname hs) (hisName hother hs') hhash hhash' hs hs'

/-- Dots at both ends of a name. -/
theorem hiddenNotes_stamped : stamp? ".notes..txt." "0123abcd" = some ".notes..txt-0123abcd." ∧
    Path.stem? ⟨".notes..txt-0123abcd."⟩ = some ".notes..txt-0123abcd" ∧ stamp? ".notes..txt-0123abcd." "0123abcd" = none ∧
    ∀ other hash', '/' ∉ other.toList → IsHash hash' → stamp? other hash' = some ".notes..txt-0123abcd." →
      ".notes..txt." = other ∧ "0123abcd" = hash' := by
  have hs : stamp? ".notes..txt." "0123abcd" = some ".notes..txt-0123abcd." := by decide +kernel
  have hname : '/' ∉ ".notes..txt.".toList := by decide
  have hhash : IsHash "0123abcd" := by decide
  obtain ⟨-, hstamped, hinjective⟩ := stamp?_stable_injective hname hhash
  obtain ⟨-, -, -, -, hagain⟩ := hstamped _ hs
  exact ⟨hs, by decide +kernel, hagain, fun other hash' hother hhash' => hinjective other hash' _ hother hhash' hs⟩

end SiteTree.Asset
