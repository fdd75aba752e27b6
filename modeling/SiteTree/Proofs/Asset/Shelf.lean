import SiteTree.Proofs.Asset.Stamp

/-!
The assets of one directory as they are given their new names one after another. A new name may be
that of another asset: with an extension that one has had its turn already, without one it is
still to come and its content is lost.
-/

namespace SiteTree.Asset

/-- The assets of a directory, by name. -/
abbrev Shelf := String → Option ByteArray

namespace Shelf

variable {s s₀ : Shelf} {k m n x : String} {names rest : List String} {bytes : ByteArray}

def newName? (s : Shelf) (n : String) : Option String := (s n).bind fun bytes => stamp? n (fingerprint bytes)

def stampOne (s : Shelf) (n : String) : Shelf :=
  match s.newName? n with
  | some m => fun x => if x = m then s n else if x = n then none else s x
  | none => s

/-- The shelf after each of the names has had its turn, and the renames that were made. -/
def stampAll : List String → Shelf → Shelf × List (String × String)
  | [], s => (s, [])
  | n :: rest, s =>
    let (s', renames) := stampAll rest (s.stampOne n)
    (s', ((s.newName? n).map (n, ·)).toList ++ renames)

/-- Before its turn comes another asset is put in its place: one without an extension whose new
name this is, and which is still there when its own turn comes. -/
def Displaced (s : Shelf) (n : String) : Prop :=
  ∃ k, ∃ _ : k.length < n.length, IsBare k ∧ s.newName? k = some n ∧ ¬ s.Displaced k
termination_by n.length

def Displaces (s : Shelf) (k n : String) : Prop := IsBare k ∧ s.newName? k = some n ∧ ¬ s.Displaced k

/-- All names on the shelf can be held by a directory. -/
def Named (s : Shelf) : Prop := ∀ n, (s n).isSome → IsName n

theorem newName?_eq_some : s.newName? n = some m ↔
    ∃ bytes, s n = some bytes ∧ stamp? n (fingerprint bytes) = some m := Option.bind_eq_some_iff

theorem Named.of_newName? (hn : s.Named) (h : s.newName? n = some m) : IsName n := by
  obtain ⟨bytes, hb, -⟩ := newName?_eq_some.1 h
  exact hn n (by rw [hb]; rfl)

theorem newName?_inj (hn : s.Named) (hk : s.newName? k = some m) (h : s.newName? n = some m) : k = n := by
  obtain ⟨a, ha, hsa⟩ := newName?_eq_some.1 hk
  obtain ⟨b, hb, hsb⟩ := newName?_eq_some.1 h
  exact (stamped_inj (hn.of_newName? hk) hsa (hn.of_newName? h) hsb).1

theorem displaced_iff (hn : s.Named) : s.Displaced n ↔ ∃ k, s.Displaces k n := by
  rw [Displaced]
  constructor
  · rintro ⟨k, -, h⟩
    exact ⟨k, h⟩
  · rintro ⟨k, hb, hk, hd⟩
    obtain ⟨a, -, hsa⟩ := newName?_eq_some.1 hk
    exact ⟨k, length_lt_stamped (hn.of_newName? hk) hsa, hb, hk, hd⟩

theorem Displaces.lt (hn : s.Named) (h : s.Displaces k n) : k < n := by
  obtain ⟨a, -, hsa⟩ := newName?_eq_some.1 h.2.1
  exact lt_stamped_of_isBare (hn.of_newName? h.2.1) hsa h.1

/-- What takes the place of an asset carries its own hash there, so it is not renamed again. -/
theorem Displaces.addressed (hn : s.Named) (h : s.Displaces k n) (hk : s k = some bytes) : Addressed n bytes := by
  obtain ⟨a, ha, hsa⟩ := newName?_eq_some.1 h.2.1
  obtain rfl := Option.some.inj (ha.symm.trans hk)
  exact addressed_stamped (hn.of_newName? h.2.1) hsa

theorem newName?_of_addressed (hname : IsName n) (h : ∀ bytes, s n = some bytes → Addressed n bytes) :
    s.newName? n = none := by
  rw [newName?, Option.bind_eq_none_iff]
  exact fun bytes hb => (stamp?_eq_none hname).2 (h bytes hb)

theorem stampOne_of_some (h : s.newName? n = some m) (x : String) :
    s.stampOne n x = if x = m then s n else if x = n then none else s x := by
  rw [stampOne, h]

theorem stampOne_of_none (h : s.newName? n = none) : s.stampOne n = s := by
  rw [stampOne, h]

/-- Each name still to come holds what it held at first, unless one that has had its turn was put
in its place. -/
def Pending (s₀ s : Shelf) (rest : List String) : Prop :=
  ∀ n ∈ rest, (s n = s₀ n ∧ ∀ k, s₀.Displaces k n → k ∈ rest) ∨ ∃ k, s₀.Displaces k n ∧ s n = s₀ k

theorem pending_refl (hall : ∀ n, (s₀ n).isSome → n ∈ names) : Pending s₀ s₀ names := by
  refine fun n _ => .inl ⟨rfl, fun k hk => hall k ?_⟩
  obtain ⟨a, ha, -⟩ := newName?_eq_some.1 hk.2.1
  rw [ha]
  rfl

section

variable (hn : s₀.Named) (hsort : (n :: rest).Pairwise (· < ·)) (hp : Pending s₀ s (n :: rest))

include hn hsort hp

theorem Pending.turn : ¬ s₀.Displaced n ∧ s n = s₀ n ∨ ∃ k, s₀.Displaces k n ∧ s n = s₀ k := by
  rcases hp n (by simp) with ⟨hsame, hrest⟩ | h
  · refine .inl ⟨fun hd => ?_, hsame⟩
    obtain ⟨k, hk⟩ := (displaced_iff hn).1 hd
    have hlt := hk.lt hn
    rcases List.mem_cons.1 (hrest k hk) with rfl | hmem
    · exact String.lt_irrefl k hlt
    · exact String.lt_irrefl k (String.lt_trans hlt ((List.pairwise_cons.1 hsort).1 k hmem))
  · exact .inr h

theorem Pending.newName? (hname : IsName n) : s.newName? n = some m ↔ s₀.newName? n = some m ∧ ¬ s₀.Displaced n := by
  rcases hp.turn hn hsort with ⟨hd, hsame⟩ | ⟨k, hk, hsame⟩
  · have he : Shelf.newName? s n = Shelf.newName? s₀ n := by rw [Shelf.newName?, hsame]; rfl
    rw [he]
    exact ⟨fun h => ⟨h, hd⟩, And.left⟩
  · have hnone : Shelf.newName? s n = none :=
      newName?_of_addressed hname fun bytes hb => hk.addressed hn (hsame ▸ hb)
    rw [hnone]
    exact ⟨nofun, fun h => absurd ((displaced_iff hn).2 ⟨k, hk⟩) h.2⟩

theorem Pending.step (hname : IsName n) : Pending s₀ (s.stampOne n) rest := by
  have hne : ∀ x ∈ rest, x ≠ n := by
    rintro x hx rfl
    exact String.lt_irrefl x ((List.pairwise_cons.1 hsort).1 x hx)
  intro x hx
  cases hnew : Shelf.newName? s n with
  | none =>
      rw [stampOne_of_none hnew]
      refine (hp x (List.mem_cons_of_mem n hx)).imp_left fun ⟨hsame, hrest⟩ => ⟨hsame, fun k hk => ?_⟩
      refine (List.mem_cons.1 (hrest k hk)).resolve_left ?_
      rintro rfl
      have hc := (hp.newName? hn hsort hname).2 ⟨hk.2.1, hk.2.2⟩
      rw [hnew] at hc
      cases hc
  | some m =>
      obtain ⟨hm, hd⟩ := (hp.newName? hn hsort hname).1 hnew
      have hturn : s n = s₀ n := by
        rcases hp.turn hn hsort with ⟨-, hsame⟩ | ⟨k, hk, -⟩
        · exact hsame
        · exact absurd ((displaced_iff hn).2 ⟨k, hk⟩) hd
      rw [stampOne_of_some hnew]
      by_cases hxm : x = m
      · subst hxm
        obtain ⟨a, -, hsa⟩ := newName?_eq_some.1 hm
        have hbare : IsBare n := by
          by_contra hb
          have hlt := stamped_lt_of_not_isBare hname hsa hb
          exact String.lt_irrefl x (String.lt_trans hlt ((List.pairwise_cons.1 hsort).1 x hx))
        exact .inr ⟨n, ⟨hbare, hm, hd⟩, by rw [if_pos rfl, hturn]⟩
      · rw [if_neg hxm, if_neg (hne x hx)]
        refine (hp x (List.mem_cons_of_mem n hx)).imp_left fun ⟨hsame, hrest⟩ => ⟨hsame, fun k hk => ?_⟩
        refine (List.mem_cons.1 (hrest k hk)).resolve_left ?_
        rintro rfl
        exact hxm (Option.some.inj (hk.2.1.symm.trans hm))

end

theorem stampAll_cons (n : String) (rest : List String) (s : Shelf) : stampAll (n :: rest) s =
    ((stampAll rest (s.stampOne n)).1,
      ((s.newName? n).map (n, ·)).toList ++ (stampAll rest (s.stampOne n)).2) := rfl

section

variable (hn : s₀.Named) (hsort : rest.Pairwise (· < ·)) (hnames : ∀ n ∈ rest, IsName n) (hp : Pending s₀ s rest)

include hn hsort hnames hp

/-- A content that its name is the address of stays, unless the same content is put there again. -/
theorem stampAll_settled (hx : s x = some bytes) (ha : Addressed x bytes)
    (hfree : ∀ m ∈ rest, s₀.newName? m = some x → s₀ m = some bytes) : (stampAll rest s).1 x = some bytes := by
  induction rest generalizing s with
  | nil => exact hx
  | cons n rest ih =>
      have hname := hnames n (by simp)
      refine ih (List.pairwise_cons.1 hsort).2 (fun m hm => hnames m (List.mem_cons_of_mem n hm))
        (hp.step hn hsort hname) ?_ fun m hm => hfree m (List.mem_cons_of_mem n hm)
      cases hnew : s.newName? n with
      | none => rw [stampOne_of_none hnew, hx]
      | some m =>
          rw [stampOne_of_some hnew]
          obtain ⟨hm, hd⟩ := (hp.newName? hn hsort hname).1 hnew
          by_cases hxm : x = m
          · subst hxm
            rcases hp.turn hn hsort with ⟨-, hsame⟩ | ⟨k, hk, -⟩
            · rw [if_pos rfl, hsame, hfree n (by simp) hm]
            · exact absurd ((displaced_iff hn).2 ⟨k, hk⟩) hd
          · by_cases hxn : x = n
            · subst hxn
              have hnone : s.newName? x = none :=
                newName?_of_addressed hname fun b hb => Option.some.inj (hx.symm.trans hb) ▸ ha
              rw [hnone] at hnew
              cases hnew
            · rw [if_neg hxm, if_neg hxn, hx]

/-- What is in its place when its turn comes is under its new name in the end. -/
theorem stampAll_kept (hmem : n ∈ rest) (hb : s₀ n = some bytes) (hd : ¬ s₀.Displaced n)
    (hsame : ∀ m c, s₀.newName? m = some n → s₀ m = some c → fingerprint c = fingerprint bytes → c = bytes) :
    (stampAll rest s).1 ((s₀.newName? n).getD n) = some bytes := by
  induction rest generalizing s with
  | nil => cases hmem
  | cons k rest ih =>
      have hname := hnames k (by simp)
      have hsort' := (List.pairwise_cons.1 hsort).2
      have hnames' : ∀ m ∈ rest, IsName m := fun m hm => hnames m (List.mem_cons_of_mem k hm)
      have hp' := hp.step hn hsort hname
      rw [stampAll_cons]
      by_cases hkn : n = k
      · subst hkn
        have hturn : s n = some bytes := by
          rcases hp.turn hn hsort with ⟨-, hs⟩ | ⟨k, hk, -⟩
          · rw [hs, hb]
          · exact absurd ((displaced_iff hn).2 ⟨k, hk⟩) hd
        cases hnew : s₀.newName? n with
        | none =>
            have hnone : s.newName? n = none := by rw [newName?, hturn, ← hnew, newName?, hb]
            have haddressed : Addressed n bytes := by
              rw [newName?, hb] at hnew
              exact (stamp?_eq_none hname).1 hnew
            refine stampAll_settled hn hsort' hnames' hp' (by rwa [stampOne_of_none hnone]) haddressed ?_
            intro m hm hmn
            obtain ⟨c, hc, hsc⟩ := newName?_eq_some.1 hmn
            have hfinger := (addressed_stamped (hn.of_newName? hmn) hsc).unique haddressed
            rw [hc, hsame m c hmn hc hfinger]
        | some m =>
            have hnew' := (hp.newName? hn hsort hname).2 ⟨hnew, hd⟩
            obtain ⟨c, hc, hsc⟩ := newName?_eq_some.1 hnew
            obtain rfl := Option.some.inj (hc.symm.trans hb)
            refine stampAll_settled hn hsort' hnames' hp' ?_ (addressed_stamped hname hsc) fun k hk hkm => ?_
            · rw [stampOne_of_some hnew']
              exact (if_pos rfl).trans hturn
            · obtain rfl := newName?_inj hn hkm hnew
              exact absurd ((List.pairwise_cons.1 hsort).1 k hk) (String.lt_irrefl k)
      · exact ih hsort' hnames' hp' ((List.mem_cons.1 hmem).resolve_left hkn)

/-- What takes the place of an asset stays there. -/
theorem stampAll_displaced (hmem : n ∈ rest) (hk : s₀.Displaces k n) : (stampAll rest s).1 n = s₀ k := by
  induction rest generalizing s with
  | nil => cases hmem
  | cons l rest ih =>
      have hname := hnames l (by simp)
      have hsort' := (List.pairwise_cons.1 hsort).2
      have hnames' : ∀ m ∈ rest, IsName m := fun m hm => hnames m (List.mem_cons_of_mem l hm)
      have hp' := hp.step hn hsort hname
      rw [stampAll_cons]
      by_cases hln : n = l
      · subst hln
        obtain ⟨c, hc, -⟩ := newName?_eq_some.1 hk.2.1
        have haddressed := hk.addressed hn hc
        have hturn : s n = some c := by
          rcases hp.turn hn hsort with ⟨hd, -⟩ | ⟨k', hk', hs⟩
          · exact absurd ((displaced_iff hn).2 ⟨k, hk⟩) hd
          · rw [hs, newName?_inj hn hk'.2.1 hk.2.1, hc]
        have hnone : s.newName? n = none :=
          newName?_of_addressed hname fun b hb => Option.some.inj (hturn.symm.trans hb) ▸ haddressed
        rw [hc]
        refine stampAll_settled hn hsort' hnames' hp' (by rwa [stampOne_of_none hnone]) haddressed fun m _ hmn => ?_
        rw [newName?_inj hn hmn hk.2.1, hc]
      · exact ih hsort' hnames' hp' ((List.mem_cons.1 hmem).resolve_left hln)

theorem mem_renames : (n, m) ∈ (stampAll rest s).2 ↔ n ∈ rest ∧ s₀.newName? n = some m ∧ ¬ s₀.Displaced n := by
  induction rest generalizing s with
  | nil => simp [stampAll]
  | cons l rest ih =>
      have hname := hnames l (by simp)
      have hhead : (n, m) ∈ ((s.newName? l).map (l, ·)).toList ↔
          n = l ∧ s₀.newName? l = some m ∧ ¬ s₀.Displaced l := by
        rw [← hp.newName? hn hsort hname]
        cases s.newName? l with
        | none => simp
        | some m' => simp [eq_comm]
      rw [stampAll_cons, List.mem_append, hhead, ih (List.pairwise_cons.1 hsort).2
        (fun m hm => hnames m (List.mem_cons_of_mem l hm)) (hp.step hn hsort hname), List.mem_cons, or_and_right]
      refine or_congr_left (and_congr_right fun he => ?_)
      rw [he]

end

/-- After the turn of every asset each name is the address of its content. -/
theorem stampAll_addressed (hnames : ∀ n ∈ rest, IsName n)
    (h : ∀ x bytes, s x = some bytes → x ∈ rest ∨ Addressed x bytes) (hx : (stampAll rest s).1 x = some bytes) :
    Addressed x bytes := by
  induction rest generalizing s with
  | nil => exact (h x bytes hx).resolve_left List.not_mem_nil
  | cons n rest ih =>
      have hname := hnames n (by simp)
      refine ih (fun m hm => hnames m (List.mem_cons_of_mem n hm)) (fun y b hy => ?_) hx
      cases hnew : s.newName? n with
      | none =>
          rw [stampOne_of_none hnew] at hy
          rcases h y b hy with hmem | ha
          · rcases List.mem_cons.1 hmem with rfl | hmem
            · rw [newName?, hy] at hnew
              exact .inr ((stamp?_eq_none hname).1 hnew)
            · exact .inl hmem
          · exact .inr ha
      | some m =>
          rw [stampOne_of_some hnew] at hy
          split at hy
          · next he =>
            obtain ⟨c, hc, hsc⟩ := newName?_eq_some.1 hnew
            obtain rfl := Option.some.inj (hc.symm.trans hy)
            exact .inr (he ▸ addressed_stamped hname hsc)
          · split at hy
            · cases hy
            · next hne =>
              exact (h y b hy).imp_left fun hmem => (List.mem_cons.1 hmem).resolve_left hne

/-- Nothing is renamed just if each name is the address of its content already. -/
theorem stampAll_snd_eq_nil (hnames : ∀ n ∈ rest, IsName n) : (stampAll rest s).2 = [] ↔
    ∀ n ∈ rest, ∀ bytes, s n = some bytes → Addressed n bytes := by
  induction rest generalizing s with
  | nil => simp [stampAll]
  | cons n rest ih =>
      have hname := hnames n (by simp)
      have ih' := fun s => @ih s fun m hm => hnames m (List.mem_cons_of_mem n hm)
      have hnone : s.newName? n = none ↔ ∀ bytes, s n = some bytes → Addressed n bytes := by
        rw [newName?, Option.bind_eq_none_iff]
        exact forall₂_congr fun bytes _ => stamp?_eq_none hname
      rw [stampAll_cons, List.append_eq_nil_iff, List.forall_mem_cons, ← hnone]
      cases hnew : s.newName? n with
      | none => simp [stampOne_of_none hnew, ih']
      | some m => simp

end Shelf

end SiteTree.Asset
