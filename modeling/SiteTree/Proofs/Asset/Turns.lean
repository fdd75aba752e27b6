import SiteTree.Proofs.Asset.Shelf

/-!
The turns of the assets of one directory in another order. Where no new name is in use no turn is in
the way of another, so the shelf is the same in the end, and so are the renames up to their order.
-/

namespace SiteTree.Asset.Shelf

variable {s : Shelf} {k l m n x : String} {names names' rest : List String} {bytes : ByteArray}

/-- No new name is in use. -/
def Fresh (s : Shelf) : Prop := ∀ n m, s.newName? n = some m → s m = none

theorem newName?_of_some (h : s n = some bytes) : s.newName? n = stamp? n (fingerprint bytes) := by
  rw [newName?, h]
  rfl

theorem isSome_of_newName? (h : s.newName? n = some m) : (s n).isSome := by
  obtain ⟨bytes, hb, -⟩ := newName?_eq_some.1 h
  rw [hb]
  rfl

theorem Fresh.ne (h : s.Fresh) (hn : s.newName? n = some m) (hk : (s k).isSome) : k ≠ m := by
  rintro rfl
  rw [h n k hn] at hk
  cases hk

/-- The content under a new name is the old one, which that name is the address of. -/
theorem addressed_of_newName? (hname : IsName n) (h : s.newName? n = some m) (hb : s n = some bytes) :
    Addressed m bytes := by
  obtain ⟨c, hc, hsc⟩ := newName?_eq_some.1 h
  obtain rfl := Option.some.inj (hc.symm.trans hb)
  exact addressed_stamped hname hsc

theorem isName_of_newName? (hname : IsName n) (h : s.newName? n = some m) : IsName m := by
  obtain ⟨bytes, -, hs⟩ := newName?_eq_some.1 h
  exact stamp?_isName hname (isHash_fingerprint bytes) hs

/-- What holds a content after a turn held it before, or is the new name of what did. -/
theorem stampOne_origin (h : s.stampOne n x = some bytes) :
    s x = some bytes ∨ s n = some bytes ∧ s.newName? n = some x := by
  cases hnew : s.newName? n with
  | none =>
      rw [stampOne_of_none hnew] at h
      exact .inl h
  | some m =>
      rw [stampOne_of_some hnew] at h
      split at h
      · next he => exact .inr ⟨h, by rw [he]⟩
      · split at h
        · cases h
        · exact .inl h

theorem Named.stampOne (h : s.Named) (n : String) : (s.stampOne n).Named := by
  intro x hx
  obtain ⟨bytes, hb⟩ := Option.isSome_iff_exists.1 hx
  rcases stampOne_origin hb with hs | ⟨-, hs⟩
  · exact h x (by rw [hs]; rfl)
  · exact isName_of_newName? (h.of_newName? hs) hs

/-- Each content in the end comes from one at the start, whose name was kept or got its hash. -/
theorem stampAll_origin (hn : s.Named) (h : (stampAll rest s).1 x = some bytes) :
    ∃ n, s n = some bytes ∧ (x = n ∨ stamp? n (fingerprint bytes) = some x) := by
  induction rest generalizing s with
  | nil => exact ⟨x, h, .inl rfl⟩
  | cons n rest ih =>
      obtain ⟨k, hk, hx⟩ := ih (hn.stampOne n) h
      rcases stampOne_origin hk with hs | ⟨hs, hnew⟩
      · exact ⟨k, hs, hx⟩
      · have hname := hn.of_newName? hnew
        have haddressed := addressed_of_newName? hname hnew hs
        refine ⟨n, hs, .inr ?_⟩
        rcases hx with rfl | hx
        · rw [← newName?_of_some hs, hnew]
        · rw [(stamp?_eq_none (isName_of_newName? hname hnew)).2 haddressed] at hx
          cases hx

section

variable (hn : s.Named) (hf : s.Fresh)

include hn hf

/-- A turn changes the new name of no other asset. -/
theorem newName?_stampOne (hne : k ≠ n) : (s.stampOne n).newName? k = s.newName? k := by
  cases hnew : s.newName? n with
  | none => rw [stampOne_of_none hnew]
  | some m =>
      by_cases hkm : k = m
      · subst hkm
        have hname := hn.of_newName? hnew
        have hold : s.newName? k = none := by
          rw [newName?, hf n k hnew]
          rfl
        rw [hold]
        refine newName?_of_addressed (isName_of_newName? hname hnew) fun bytes hb => ?_
        rw [stampOne_of_some hnew, if_pos rfl] at hb
        exact addressed_of_newName? hname hnew hb
      · rw [newName?, newName?, stampOne_of_some hnew, if_neg hkm, if_neg hne]

omit hn in
/-- An asset that has had its turn has no other new name to get. -/
theorem newName?_stampOne_self : (s.stampOne n).newName? n = none := by
  cases hnew : s.newName? n with
  | none => rw [stampOne_of_none hnew, hnew]
  | some m =>
      have hne := hf.ne hnew (isSome_of_newName? hnew)
      rw [newName?, stampOne_of_some hnew, if_neg hne, if_pos rfl]
      rfl

theorem Fresh.stampOne (n : String) : (s.stampOne n).Fresh := by
  intro k m hk
  have hne : k ≠ n := by
    rintro rfl
    rw [newName?_stampOne_self hf] at hk
    cases hk
  rw [newName?_stampOne hn hf hne] at hk
  cases hnew : s.newName? n with
  | none =>
      rw [stampOne_of_none hnew]
      exact hf k m hk
  | some m' =>
      have hmm : m ≠ m' := by
        rintro rfl
        exact hne (newName?_inj hn hk hnew)
      rw [stampOne_of_some hnew, if_neg hmm, hf k m hk, ite_self]

/-- Two turns in one order or in the other. -/
theorem stampOne_comm (hne : k ≠ n) : (s.stampOne k).stampOne n = (s.stampOne n).stampOne k := by
  have hkn := newName?_stampOne hn hf hne
  have hnk := newName?_stampOne hn hf hne.symm
  cases hk : s.newName? k with
  | none =>
      rw [stampOne_of_none hk]
      rw [hk] at hkn
      exact (stampOne_of_none hkn).symm
  | some a =>
      cases hnew : s.newName? n with
      | none =>
          rw [stampOne_of_none hnew]
          rw [hnew] at hnk
          exact stampOne_of_none hnk
      | some b =>
          rw [hk] at hkn
          rw [hnew] at hnk
          have hab : a ≠ b := by
            rintro rfl
            exact hne (newName?_inj hn hk hnew)
          have hka : k ≠ b := hf.ne hnew (isSome_of_newName? hk)
          have hnb : n ≠ a := hf.ne hk (isSome_of_newName? hnew)
          funext x
          simp only [stampOne_of_some hnk, stampOne_of_some hkn, stampOne_of_some hk, stampOne_of_some hnew,
            if_neg hnb, if_neg hne.symm, if_neg hka, if_neg hne]
          by_cases hxa : x = a
          · rw [if_neg (hxa ▸ hab), if_neg (hxa ▸ hnb.symm), if_pos hxa, if_pos hxa]
          · by_cases hxb : x = b
            · rw [if_pos hxb, if_neg hxa, if_neg (hxb ▸ hka.symm), if_pos hxb]
            · rw [if_neg hxb, if_neg hxa, if_neg hxa, if_neg hxb]
              by_cases hxn : x = n
              · rw [if_pos hxn, if_pos hxn, ite_self]
              · rw [if_neg hxn, if_neg hxn]

end

/-- The order of the turns is nothing to the shelf, and little to the renames. -/
theorem stampAll_perm (h : names.Perm names') (hn : s.Named) (hf : s.Fresh) :
    (stampAll names s).1 = (stampAll names' s).1 ∧ (stampAll names s).2.Perm (stampAll names' s).2 := by
  induction h generalizing s with
  | nil => exact ⟨rfl, .nil⟩
  | cons n _ ih =>
      obtain ⟨hshelf, hrenames⟩ := ih (hn.stampOne n) (hf.stampOne hn n)
      rw [stampAll_cons, stampAll_cons]
      exact ⟨hshelf, hrenames.append_left _⟩
  | swap k n rest =>
      by_cases hne : n = k
      · rw [hne]
        exact ⟨rfl, .refl _⟩
      · rw [stampAll_cons, stampAll_cons, stampAll_cons, stampAll_cons, newName?_stampOne hn hf hne,
          newName?_stampOne hn hf (Ne.symm hne), stampOne_comm hn hf hne]
        refine ⟨rfl, ?_⟩
        rw [← List.append_assoc, ← List.append_assoc]
        exact List.perm_append_comm.append_right _
  | trans _ _ ih ih' =>
      obtain ⟨hshelf, hrenames⟩ := ih hn hf
      obtain ⟨hshelf', hrenames'⟩ := ih' hn hf
      exact ⟨hshelf.trans hshelf', hrenames.trans hrenames'⟩

end SiteTree.Asset.Shelf
