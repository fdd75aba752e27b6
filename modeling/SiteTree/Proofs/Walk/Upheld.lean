import SiteTree.Proofs.Walk.Calls

/-!
What a walk keeps of the files if it succeeds. Making a file may take several steps, and only when all of them have
succeeded need the property hold again.
-/

namespace SiteTree

open SiteTree.Action FileSystem EntryName

variable {α β : Type} {J : FileSystem → Prop} {T : Path → Prop} {options : Options} {source target : Path} {p : Waiting}
  {w w' : World} {links : List (Link World Failure)} {announce : String → Waiting → Action Unit}

/-- The files have the property after the action if they had it before and the action succeeds. -/
def Action.Upholds (J : FileSystem → Prop) (a : Action α) : Prop := ∀ w v w', a w = .ok v w' → J w.files → J w'.files

theorem Action.Keeps.upholds {a : Action α} (h : Keeps J a) : Upholds J a := by
  intro w v w' hrun hw
  have hafter := h w hw
  rwa [after_ok hrun] at hafter

theorem Action.Upholds.bind {a : Action α} {f : α → Action β} (ha : Upholds J a) (hf : ∀ v, Upholds J (f v)) :
    Upholds J (a >>= f) := by
  intro w u w' hrun hw
  obtain ⟨v, w₁, hfirst, hrest⟩ := bind_eq_ok hrun
  exact hf v w₁ u w' hrest (ha w v w₁ hfirst hw)

/-- A kind of targets, pages with their place included, at which a file that is written or copied upholds a property of
the files. -/
structure Upheld (J : FileSystem → Prop) (T : Path → Prop) : Prop where
  place : ∀ {target}, T target → T (Page.placeOf target)
  text : ∀ {target}, T target → ∀ text, Upholds J (writeText target text)
  copy : ∀ {target}, T target → ∀ source, Upholds J (copy source target)

namespace Chain

variable (h : ∀ l ∈ links, l.Keeps (fun _ => True) T ∧ ∀ source target, T target → Upholds J (l.offer source target))

include h

theorem offerFrom_upholds (hp : T p.target) (i : Nat) : Upholds J (offerFrom p i links) := by
  induction links generalizing i with
  | nil => exact (Keeps.pure _).upholds
  | cons l links ih =>
      have hrest := ih (fun k hk => h k (List.mem_cons_of_mem _ hk)) (i + 1)
      rw [offerFrom]
      split
      · exact hrest
      · refine ((h l (by simp)).2 p.source p.target hp).bind fun outcome => ?_
        split
        · exact hrest
        · exact (Keeps.pure _).upholds

variable (ha : ∀ name p, Keeps J (announce name p))

include ha

theorem process_upholds (hp : T p.target) : Upholds J (process links announce p) := by
  refine (offerFrom_upholds h hp 0).bind fun taken => ?_
  split
  · exact (Keeps.pure _).upholds
  · exact ((ha _ _).bind fun _ => Keeps.pure _).upholds

/-- The induction is on the files that may still be taken up. -/
theorem drain_upholds (n : Nat) {queue : List Waiting} (hq : ∀ p ∈ queue, T p.target) (applied : Bool) :
    Upholds J (drain links announce n queue applied) := by
  induction n generalizing queue applied with
  | zero => cases queue <;> exact (Keeps.pure _).upholds
  | succ n ih =>
      cases queue with
      | nil => exact (Keeps.pure _).upholds
      | cons p queue =>
          intro w r w' hrun hw
          have hp : T p.target := hq p (by simp)
          obtain ⟨⟨taken, files⟩, w₁, hprocess, hdrain⟩ := bind_eq_ok hrun
          have hmade := process_produces (fun l hl => (h l hl).1) hp hprocess
          refine ih (fun q hmem => ?_) _ w₁ r w' hdrain (process_upholds h ha hp w _ w₁ hprocess hw)
          exact (List.mem_append.1 hmem).elim (fun hold => hq q (List.mem_cons_of_mem _ hold)) (hmade q)

end Chain

section

variable (hu : Upheld J T)

include hu

theorem LinkKind.offer_upholds (options : Options) (kind : LinkKind) (source : Path) (ht : T target) :
    Upholds J ((kind.link options).offer source target) := by
  cases kind with
  | page =>
      show Upholds J (Page.offer options source target)
      rw [Page.offer]
      split
      · exact (Keeps.pure _).upholds
      · exact (Page.render_keeps source options).upholds.bind fun content =>
          (hu.text (hu.place ht) content).bind fun _ => (Keeps.pure _).upholds
  | stylesheet =>
      show Upholds J (Stylesheet.offer source target)
      rw [Stylesheet.offer]
      split
      · exact (Keeps.pure _).upholds
      · split
        · exact (Keeps.pure _).upholds
        · exact (Stylesheet.bundle_keeps source).upholds.bind fun content =>
            (hu.text ht content).bind fun _ => (Keeps.pure _).upholds

namespace Walk

theorem runChain_upholds (options : Options) (source : Path) (ht : T target) : Upholds J (runChain options source target) := by
  have hany : Writes (fun _ => True) T := ⟨hu.place, fun _ _ _ _ => trivial, fun _ _ _ _ => trivial⟩
  refine Upholds.bind (Chain.drain_upholds (T := T) ?_ (fun _ _ => progress_keeps _ _) chainLimit ?_ false) fun applied => ?_
  · intro l hl
    obtain ⟨kind, -, rfl⟩ := List.mem_map.1 hl
    exact ⟨kind.link_keeps hany options, fun source target ht => kind.offer_upholds hu options source ht⟩
  · simpa using ht
  · cases applied with
    | none => exact (Keeps.throw _).upholds
    | some applied => exact (Keeps.pure _).upholds

theorem emit_upholds (options : Options) (source : Path) (ht : T target) : Upholds J (emit options source target) := by
  refine (runChain_upholds hu options source ht).bind fun applied => ?_
  split
  · exact (Keeps.pure _).upholds
  · refine (Keeps.check _).upholds.bind fun there => ?_
    split
    · exact (Keeps.debug _ _).upholds
    · exact hu.copy ht source

end Walk

end

namespace Walk

variable {limits : Limits} {n : Nat} {dir dest : Path} {base : List String} {x : Handover}

/-- Where all names are plain, the files that a walk hands over go below its destination. -/
theorem handed_target (hd : Below base dest) (hplain : MeetsPlain limits n options dir dest w)
    (hx : x ∈ handed emit limits n options dir dest w) : IsTarget base x.target := by
  induction n generalizing options dir dest w x with
  | zero => cases hx
  | succ n ih =>
      obtain ⟨entry, e, w₁, y, hc, rfl, hy⟩ := mem_handed_emit.1 hx
      have hname := hplain e (.own hc)
      split at hy
      · next hdir =>
        have hinner := innerDest_fits (D := Below base) (fun hd hs => (inside_child hd hs.isName).below) hd hname
        exact ih (x := y) hinner (fun e' hm => hplain e' (.inner hc hdir hm)) hy
      · obtain ⟨hform, rfl⟩ := hy
        exact isTarget_child hd (hname hform)

/-- A walk that succeeds upholds what writing and copying to its targets do: each of its calls has succeeded. -/
theorem render_upholds (hd : Below base dest) (hu : Upheld J (IsTarget base))
    (hplain : MeetsPlain limits n options dir dest w) (hw : J w.files)
    (hrun : render limits n options dir dest w = .ok () w') : J w'.files := by
  have hcalls : ∀ x ∈ handed emit limits n options dir dest w, J x.world.files →
      J ((emit x.options x.source x.target).after x.world).files := by
    intro x hx hworld
    cases hemit : emit x.options x.source x.target x.world with
    | ok u w₁ =>
        rw [after_ok hemit]
        exact emit_upholds hu x.options x.source (handed_target hd hplain hx) x.world u w₁ hemit hworld
    | error e w₁ =>
        have hfails := renderWith_error hx hemit
        rw [renderWith_emit, hrun] at hfails
        cases hfails
  have hkept := (handed_keeps hw hcalls).2
  rwa [after_ok hrun] at hkept

end Walk

end SiteTree
